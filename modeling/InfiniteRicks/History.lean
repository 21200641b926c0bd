import InfiniteRicks.Accept
import InfiniteRicks.ConnectSpec
import Mathlib.Data.Set.Function

/-!
# Chains of connected blocks

A run of `ConnectBlock` and last-in-first-out `DisconnectBlock` calls from the
genesis index, as the stack of blocks it has left connected and the transaction
index it has left in the database. While every connected block has ids that the
index does not know, the index is the replay of the stack; the height rule of
`AcceptBlock` provides such ids, and then no output is spent twice.
-/

namespace InfiniteRicks

open Ledger

/-- A connected block and the entry it was connected at. -/
abbrev Linked := CBlock × CBlockIndex

/-- The transactions of a stack of blocks with their positions, newest first. -/
def ledger : List Linked → TxHistory
  | [] => []
  | (block, pindex) :: earlier => (block.entries pindex).reverse ++ ledger earlier

/-- Runs of `ConnectBlock` and last-in-first-out `DisconnectBlock` from the genesis
index, which is empty: the genesis block is never connected. Only the index carries
over from call to call; the rest of the state may change in between. -/
inductive Runs (env : Env) (Admit : List Linked → TxIndexMap → CBlock → Prop) :
    List Linked → TxIndexMap → Prop
  | genesis : Runs env Admit [] fun _ => none
  | connect {stack : List Linked} {s after : Node} {block : CBlock} {pindex : CBlockIndex}
      {pprev : BlockPtr} (earlier : Runs env Admit stack s.txdb.txIndex)
      (admitted : Admit stack s.txdb.txIndex block)
      (connected : block.connectBlock env s pindex pprev = some after) :
      Runs env Admit ((block, pindex) :: stack) after.txdb.txIndex
  | disconnect {stack : List Linked} {s after : Node} {block : CBlock} {pindex : CBlockIndex}
      {pprev : BlockPtr} (earlier : Runs env Admit ((block, pindex) :: stack) s.txdb.txIndex)
      (disconnected : block.disconnectBlock env s pprev = .ok after) :
      Runs env Admit stack after.txdb.txIndex

/-- The ids of a block are pairwise distinct and absent from the index. -/
def FreshIds (env : Env) (index : TxIndexMap) (block : CBlock) : Prop :=
  (block.vtx.map env.txHash).Nodup ∧ ∀ tx ∈ block.vtx, index (env.txHash tx) = none

/-- Every block of a stack could be connected, with fresh ids, on the earlier ones. -/
def Sound (env : Env) : List Linked → Prop
  | [] => True
  | (block, pindex) :: earlier =>
      Connectable env (replay env (ledger earlier)) (block.entries pindex) ∧
        FreshIds env (replay env (ledger earlier)) block ∧ Sound env earlier

namespace Ledger

variable {env : Env} {history entries : TxHistory}

/-- Replaying a block on top of a history connects its transactions in order. -/
theorem replay_reverse_append :
    replay env (entries.reverse ++ history) = applyTxs env (replay env history) entries := by
  induction entries generalizing history with
  | nil => rfl
  | cons entry rest ih =>
      rw [List.reverse_cons, List.append_assoc, List.singleton_append, ih]
      rfl

/-- A block with fresh ids keeps a history valid. -/
theorem Valid.extend (valid : Valid env history)
    (connectable : Connectable env (replay env history) entries)
    (real : ∀ entry ∈ entries, entry.2.isNull = false) (nodup : (ids env entries).Nodup)
    (fresh : ∀ hash ∈ ids env entries, hash ∉ ids env history) :
    Valid env (entries.reverse ++ history) := by
  induction entries generalizing history with
  | nil => exact valid
  | cons entry rest ih =>
      obtain ⟨tx, pos⟩ := entry
      simp only [ids, List.map_cons, List.nodup_cons] at nodup
      rw [List.reverse_cons, List.append_assoc, List.singleton_append]
      have newest : Valid env ((tx, pos) :: history) :=
        ⟨fresh _ (by simp [ids]), real _ List.mem_cons_self, connectable.1, valid⟩
      refine ih newest connectable.2 (fun entry member => real entry (List.mem_cons_of_mem _ member))
        nodup.2 ?_
      intro hash member present
      rcases List.mem_cons.mp present with rfl | past
      · exact nodup.1 member
      · exact fresh hash (List.mem_cons_of_mem _ member) past

end Ledger

section Stacks

variable {env : Env} {stack : List Linked} {index : TxIndexMap}

/-- The ledger of a sound stack is a valid history. -/
theorem Sound.valid (sound : Sound env stack) : Valid env (ledger stack) := by
  induction stack with
  | nil => trivial
  | cons linked earlier ih =>
      obtain ⟨block, pindex⟩ := linked
      obtain ⟨connectable, ⟨nodup, fresh⟩, before⟩ := sound
      refine (ih before).extend connectable (fun entry member => CBlock.entries_real member)
        (CBlock.ids_entries env block pindex ▸ nodup) ?_
      intro hash member present
      rw [CBlock.ids_entries] at member
      obtain ⟨tx, inBlock, rfl⟩ := List.mem_map.mp member
      rw [← replay_isSome, fresh tx inBlock] at present
      cases present

/-- One connection of a block with fresh ids. -/
theorem Sound.connect {s after : Node} {block : CBlock} {pindex : CBlockIndex} {pprev : BlockPtr}
    (sound : Sound env stack) (indexed : s.txdb.txIndex = replay env (ledger stack))
    (fresh : FreshIds env s.txdb.txIndex block)
    (connected : block.connectBlock env s pindex pprev = some after) :
    Sound env ((block, pindex) :: stack) ∧
      after.txdb.txIndex = replay env (ledger ((block, pindex) :: stack)) := by
  have spec := CBlock.connectBlock_spec connected
  refine ⟨⟨indexed ▸ spec.connectable, indexed ▸ fresh, sound⟩, ?_⟩
  rw [spec.txIndex, indexed, ledger, replay_reverse_append]

/-- One disconnection of the newest block. -/
theorem Sound.disconnect {s after : Node} {block : CBlock} {pindex : CBlockIndex} {pprev : BlockPtr}
    (sound : Sound env ((block, pindex) :: stack))
    (indexed : s.txdb.txIndex = replay env (ledger ((block, pindex) :: stack)))
    (disconnected : block.disconnectBlock env s pprev = .ok after) :
    Sound env stack ∧ after.txdb.txIndex = replay env (ledger stack) := by
  obtain ⟨connectable, ⟨nodup, fresh⟩, before⟩ := sound
  rw [ledger, replay_reverse_append] at indexed
  obtain ⟨restored, succeeds, result⟩ :=
    CBlock.disconnectBlock_applyTxs pprev indexed connectable nodup fresh
  rw [disconnected, Except.ok.injEq] at succeeds
  exact ⟨before, succeeds ▸ result⟩

/-- Where every admitted block has fresh ids, the index is the replay of the stack. -/
theorem Runs.sound {Admit : List Linked → TxIndexMap → CBlock → Prop}
    (fresh : ∀ {stack s after block pindex pprev}, Runs env Admit stack s.txdb.txIndex →
      Sound env stack → s.txdb.txIndex = replay env (ledger stack) → Admit stack s.txdb.txIndex block →
      CBlock.connectBlock env s block pindex pprev = some after → FreshIds env s.txdb.txIndex block)
    (runs : Runs env Admit stack index) : Sound env stack ∧ index = replay env (ledger stack) := by
  induction runs with
  | genesis => exact ⟨trivial, rfl⟩
  | connect earlier admitted connected ih =>
      exact ih.1.connect ih.2 (fresh earlier ih.1 ih.2 admitted connected) connected
  | disconnect _ disconnected ih => exact ih.1.disconnect ih.2 disconnected

end Stacks

/-- Disconnecting a block right after connecting it restores the transaction index,
and after any run of connections and last-in-first-out disconnections of blocks with
fresh ids the index is the replay of the blocks that are still connected. -/
theorem connect_disconnect_inverse (env : Env) :
    (∀ {s after : Node} {block : CBlock} {pindex : CBlockIndex} {pprev : BlockPtr},
        FreshIds env s.txdb.txIndex block → block.connectBlock env s pindex pprev = some after →
        ∃ restored, block.disconnectBlock env after pprev = .ok restored ∧
          restored.txdb.txIndex = s.txdb.txIndex) ∧
      ∀ {stack : List Linked} {index : TxIndexMap},
        Runs env (fun _ index block => FreshIds env index block) stack index →
        index = replay env (ledger stack) := by
  constructor
  · rintro s after block pindex pprev ⟨nodup, fresh⟩ connected
    have spec := CBlock.connectBlock_spec connected
    exact CBlock.disconnectBlock_applyTxs pprev spec.txIndex spec.connectable nodup fresh
  · intro stack index runs
    exact (runs.sound fun _ _ _ admitted _ => admitted).2

section Heights

variable {env : Env} {U : Set CTransaction}

/-- What `AcceptBlock` makes sure of before a block is connected on a stack: the
coinbase starts with the height, which is an `int`. The transactions are taken from
a set on which hashes do not collide. -/
def HeightRule (U : Set CTransaction) (stack : List Linked) (_ : TxIndexMap) (block : CBlock) : Prop :=
  (∀ tx ∈ block.vtx, tx ∈ U) ∧
    ∃ nHeight : Int32, nHeight.toInt = stack.length + 1 ∧ block.checkCoinbaseHeight nHeight = true

/-- The blocks of a stack obey the height rule and have one coinbase, in front. -/
def Heighted (U : Set CTransaction) : List Linked → Prop
  | [] => True
  | (block, _) :: earlier =>
      (∃ index, HeightRule U earlier index block) ∧
        (∃ coinbase rest, block.vtx = coinbase :: rest ∧ coinbase.isCoinBase = true ∧
          ∀ tx ∈ rest, tx.isCoinBase = false) ∧ Heighted U earlier

theorem Runs.heighted {stack : List Linked} {index : TxIndexMap} (runs : Runs env (HeightRule U) stack index) :
    Heighted U stack := by
  induction runs with
  | genesis => trivial
  | connect _ admitted connected ih =>
      have checked := CBlock.checked_of_checkBlock (CBlock.connectBlock_spec connected).checked
      exact ⟨⟨_, admitted⟩, checked.coinbase, ih⟩
  | disconnect _ _ ih => exact ih.2.2

/-- Every transaction of a ledger is one of a block of the stack. -/
theorem mem_ledger {stack : List Linked} {tx : CTransaction} {pos : CDiskTxPos} (member : (tx, pos) ∈ ledger stack) :
    ∃ block pindex earlier, (block, pindex) :: earlier <:+ stack ∧ tx ∈ block.vtx := by
  induction stack with
  | nil => simp [ledger] at member
  | cons linked before ih =>
      obtain ⟨block, pindex⟩ := linked
      rcases List.mem_append.mp member with here | past
      · refine ⟨block, pindex, before, List.suffix_rfl, ?_⟩
        rw [← CBlock.entries_map_fst block pindex]
        exact List.mem_map_of_mem (f := Prod.fst) (List.mem_reverse.mp here)
      · obtain ⟨older, entry, rest, suffix, inBlock⟩ := ih past
        exact ⟨older, entry, rest, suffix.trans (List.suffix_cons _ _), inBlock⟩

theorem Heighted.of_suffix {stack tail : List Linked} (heighted : Heighted U stack) (suffix : tail <:+ stack) :
    Heighted U tail := by
  induction stack with
  | nil =>
      rw [List.suffix_nil.mp suffix]
      trivial
  | cons linked earlier ih =>
      rcases List.suffix_cons_iff.mp suffix with rfl | shorter
      · exact heighted
      · exact ih heighted.2.2 shorter

/-- Coinbases of different heights differ. -/
theorem height_unique {block other : CBlock} {stack earlier : List Linked} {index indexOther : TxIndexMap}
    {coinbase : CTransaction} (rule : HeightRule U stack index block)
    (ruleOther : HeightRule U earlier indexOther other) (front : block.vtx.head? = some coinbase)
    (frontOther : other.vtx.head? = some coinbase) : stack.length = earlier.length := by
  obtain ⟨-, nHeight, height, starts⟩ := rule
  obtain ⟨-, nHeightOther, heightOther, startsOther⟩ := ruleOther
  obtain ⟨rest, shape⟩ := List.head?_eq_some_iff.mp front
  obtain ⟨restOther, shapeOther⟩ := List.head?_eq_some_iff.mp frontOther
  simp only [CBlock.checkCoinbaseHeight, shape] at starts
  simp only [CBlock.checkCoinbaseHeight, shapeOther] at startsOther
  split at starts
  · rename_i txin more inputs
    rw [inputs] at startsOther
    have same := heightScript_inj (by omega) (by omega) (List.isPrefixOf_iff_prefix.mp starts)
      (List.isPrefixOf_iff_prefix.mp startsOther)
    rw [same] at height
    omega
  · cases starts

/-- No id repeats in a valid history. -/
theorem Ledger.Valid.ids_nodup {history : TxHistory} (valid : Valid env history) : (ids env history).Nodup := by
  induction history with
  | nil => exact List.nodup_nil
  | cons entry earlier ih => exact List.nodup_cons.mpr ⟨valid.1, ih valid.2.2.2⟩

/-- An ordinary transaction that can be connected is not in the history: there its
inputs are taken. -/
theorem Ledger.Valid.notMem_of_spendable {history : TxHistory} {tx : CTransaction} {pos place : CDiskTxPos}
    (valid : Valid env history) (real : pos.isNull = false)
    (spendable : TxSpendable (replay env history) tx pos) (ordinary : tx.isCoinBase = false)
    (inputs : tx.vin ≠ []) : (tx, place) ∉ history := by
  intro member
  obtain ⟨txin, rest, shape⟩ := List.exists_cons_of_ne_nil inputs
  have consumes : txin.prevout ∈ spends tx := by simp [spends, ordinary, shape]
  obtain ⟨taken, holds⟩ := valid.slotAt_of_spends member consumes
  rw [spendable.slotAt_null real consumes, Option.some.injEq] at holds
  rw [← holds] at taken
  simp at taken

/-- Connecting ordinary transactions keeps a history valid when hashes do not
collide. -/
theorem Ledger.Valid.extend_ordinary {history entries : TxHistory} (collisionFree : Set.InjOn env.txHash U)
    (valid : Valid env history) (connectable : Connectable env (replay env history) entries)
    (real : ∀ entry ∈ entries, entry.2.isNull = false) (known : ∀ entry ∈ history, entry.1 ∈ U)
    (new : ∀ entry ∈ entries, entry.1 ∈ U ∧ entry.1.isCoinBase = false ∧ entry.1.vin ≠ []) :
    Valid env (entries.reverse ++ history) := by
  induction entries generalizing history with
  | nil => exact valid
  | cons entry rest ih =>
      obtain ⟨tx, pos⟩ := entry
      obtain ⟨inU, ordinary, inputs⟩ := new _ List.mem_cons_self
      have place := real _ List.mem_cons_self
      have fresh : env.txHash tx ∉ ids env history := by
        intro present
        obtain ⟨⟨other, placeOther⟩, member, same⟩ := List.mem_map.mp present
        obtain rfl : other = tx := collisionFree (known _ member) inU same
        exact valid.notMem_of_spendable place connectable.1 ordinary inputs member
      rw [List.reverse_cons, List.append_assoc, List.singleton_append]
      refine ih ⟨fresh, place, connectable.1, valid⟩ connectable.2
        (fun entry member => real entry (List.mem_cons_of_mem _ member)) ?_
        (fun entry member => new entry (List.mem_cons_of_mem _ member))
      intro entry member
      rcases List.mem_cons.mp member with rfl | past
      · exact inU
      · exact known entry past

/-- The inputs of a well-formed transaction are not an empty list. -/
theorem CTransaction.vin_ne_nil {tx : CTransaction} (wellFormed : tx.checkTransaction = true) : tx.vin ≠ [] := by
  intro empty
  simp [checkTransaction, empty] at wellFormed

/-- A block under the height rule has fresh ids: its coinbase is not an earlier one,
and its other transactions spend unspent outputs. -/
theorem fresh_of_height (collisionFree : Set.InjOn env.txHash U) {stack : List Linked} {s after : Node}
    {block : CBlock} {pindex : CBlockIndex} {pprev : BlockPtr} (heighted : Heighted U stack)
    (sound : Sound env stack) (indexed : s.txdb.txIndex = replay env (ledger stack))
    (rule : HeightRule U stack s.txdb.txIndex block)
    (connected : block.connectBlock env s pindex pprev = some after) :
    FreshIds env s.txdb.txIndex block := by
  have spec := CBlock.connectBlock_spec connected
  have checked := CBlock.checked_of_checkBlock spec.checked
  obtain ⟨coinbase, rest, shape, base, ordinary⟩ := checked.coinbase
  have known : ∀ entry ∈ ledger stack, entry.1 ∈ U := by
    rintro ⟨tx, pos⟩ member
    obtain ⟨older, entry, earlier, suffix, inBlock⟩ := mem_ledger member
    obtain ⟨⟨_, ruleOlder⟩, -, -⟩ := heighted.of_suffix suffix
    exact ruleOlder.1 tx inBlock
  -- The coinbase is new: an equal one would have the same height.
  have fresh : env.txHash coinbase ∉ ids env (ledger stack) := by
    intro present
    obtain ⟨⟨other, place⟩, member, same⟩ := List.mem_map.mp present
    obtain rfl : other = coinbase :=
      collisionFree (known _ member) (rule.1 _ (by simp [shape])) same
    obtain ⟨older, entry, earlier, suffix, inBlock⟩ := mem_ledger member
    obtain ⟨⟨_, ruleOlder⟩, ⟨front, others, shapeOlder, -, ordinaryOlder⟩, -⟩ := heighted.of_suffix suffix
    have isFront : front = other := by
      rw [shapeOlder] at inBlock
      rcases List.mem_cons.mp inBlock with rfl | later
      · rfl
      · rw [ordinaryOlder other later] at base
        cases base
    have heights := height_unique rule ruleOlder (by rw [shape]; rfl) (by rw [shapeOlder, isFront]; rfl)
    have shorter := suffix.length_le
    simp only [List.length_cons] at shorter
    omega
  have whole : Valid env ((block.entries pindex).reverse ++ ledger stack) := by
    have connectable := spec.connectable
    have real : ∀ entry ∈ block.entries pindex, entry.2.isNull = false := fun _ => CBlock.entries_real
    have firsts := CBlock.entries_map_fst block pindex
    rw [shape] at firsts
    obtain ⟨⟨tx, pos⟩, tail, form, head, others⟩ := List.map_eq_cons_iff.mp firsts
    obtain rfl : tx = coinbase := head
    rw [indexed, form] at connectable
    rw [form] at real
    rw [form, List.reverse_cons, List.append_assoc, List.singleton_append]
    refine Valid.extend_ordinary collisionFree
      ⟨fresh, real _ List.mem_cons_self, connectable.1, sound.valid⟩ connectable.2
      (fun entry member => real entry (List.mem_cons_of_mem _ member)) ?_ ?_
    · intro entry member
      rcases List.mem_cons.mp member with rfl | past
      · exact rule.1 _ (by simp [shape])
      · exact known entry past
    · intro entry member
      have later : entry.1 ∈ rest := others ▸ List.mem_map_of_mem (f := Prod.fst) member
      have inBlock : entry.1 ∈ block.vtx := shape ▸ List.mem_cons_of_mem _ later
      exact ⟨rule.1 _ inBlock, ordinary _ later, CTransaction.vin_ne_nil (checked.wellFormed _ inBlock)⟩
  refine ⟨checked.nodup, ?_⟩
  intro tx member
  rw [indexed, ← Option.not_isSome_iff_eq_none, replay_isSome]
  intro present
  have nodup := whole.ids_nodup
  rw [ids, List.map_append, List.map_reverse, List.nodup_append] at nodup
  refine nodup.2.2 (env.txHash tx) ?_ (env.txHash tx) present rfl
  rw [List.mem_reverse]
  change env.txHash tx ∈ ids env (block.entries pindex)
  rw [CBlock.ids_entries]
  exact List.mem_map_of_mem member

/-- Under the height rule and without hash collisions, no output is consumed twice on
the main chain, and the slot of an output is taken exactly when it is consumed, by the
position of the consumer. -/
theorem no_double_spend (collisionFree : Set.InjOn env.txHash U) {stack : List Linked} {index : TxIndexMap}
    (runs : Runs env (HeightRule U) stack index) :
    (consumed (ledger stack)).Nodup ∧
      ∀ tx pos, (tx, pos) ∈ ledger stack → ∀ n : UInt32, n.toNat < tx.vout.length →
        ∃ spent, slotAt index ⟨env.txHash tx, n⟩ = some spent ∧
          (spent.isNull = false ↔ ⟨env.txHash tx, n⟩ ∈ consumed (ledger stack)) ∧
          ∀ spender place, (spender, place) ∈ ledger stack → ⟨env.txHash tx, n⟩ ∈ spends spender →
            spent = place := by
  have soundness := runs.sound fun earlier sound indexed rule connected =>
    fresh_of_height collisionFree earlier.heighted sound indexed rule connected
  obtain ⟨sound, rfl⟩ := soundness
  have valid := sound.valid
  refine ⟨valid.consumed_nodup, ?_⟩
  intro tx pos member n inRange
  -- The entry of the transaction has a slot for each output.
  obtain ⟨entry, present, entryShape⟩ := Option.map_eq_some_iff.mp (valid.entry_of_mem member)
  have length : entry.vSpent.length = tx.vout.length := (Prod.mk.inj entryShape).2
  have bound : n.toNat < entry.vSpent.length := length ▸ inRange
  have holds : slotAt (replay env (ledger stack)) ⟨env.txHash tx, n⟩ = some (entry.vSpent[n.toNat]) := by
    simp [slotAt, slot, present, bound]
  have taken : ∀ spender place, (spender, place) ∈ ledger stack →
      (⟨env.txHash tx, n⟩ : COutPoint) ∈ spends spender → entry.vSpent[n.toNat] = place ∧
        place.isNull = false := by
    intro spender place present consumes
    obtain ⟨real, at_slot⟩ := valid.slotAt_of_spends present consumes
    rw [holds, Option.some.injEq] at at_slot
    exact ⟨at_slot, real⟩
  refine ⟨_, holds, ⟨valid.consumed_of_slotAt holds, ?_⟩, fun spender place present consumes =>
    (taken spender place present consumes).1⟩
  intro isConsumed
  obtain ⟨spender, place, present, consumes⟩ := mem_consumed.mp isConsumed
  obtain ⟨same, real⟩ := taken spender place present consumes
  exact same ▸ real

end Heights

section Concrete

/-- Connect a stack of blocks, oldest first, to a node whose index is the genesis
index. -/
def connectChain (env : Env) (s : Node) (genesis : CBlockIndex) : List Linked → Option Node
  | [] => some s
  | (block, pindex) :: earlier =>
      match connectChain env s genesis earlier with
      | none => none
      | some s => block.connectBlock env s pindex (earlier.map Prod.snd ++ [genesis])

/-- Connecting a stack of admitted blocks is a run. -/
theorem connectChain_runs {env : Env} {Admit : List Linked → TxIndexMap → CBlock → Prop} {s after : Node}
    {genesis : CBlockIndex} {stack : List Linked} (start : s.txdb.txIndex = fun _ => none)
    (admitted : ∀ index block pindex earlier, (block, pindex) :: earlier <:+ stack → Admit earlier index block)
    (connected : connectChain env s genesis stack = some after) : Runs env Admit stack after.txdb.txIndex := by
  induction stack generalizing after with
  | nil =>
      simp only [connectChain, Option.some.injEq] at connected
      subst connected
      rw [start]
      exact .genesis
  | cons linked earlier ih =>
      obtain ⟨block, pindex⟩ := linked
      simp only [connectChain] at connected
      split at connected
      · cases connected
      · rename_i before succeeded
        have earlierRun := ih (fun index block pindex rest suffix =>
          admitted index block pindex rest (suffix.trans (List.suffix_cons _ _))) succeeded
        exact .connect earlierRun (admitted _ block pindex earlier List.suffix_rfl) connected

/-- A coinbase that appears at heights 1 and 12 of `repeatedCoinbase`. -/
def repeated : CTransaction := .labelledCoinBase 1 1000 [0x51, 0] [⟨1000 * coin, [0x51]⟩]

/-- The transaction that spends it at height 11. -/
def spender : CTransaction := .labelledSpend 20 1000 ⟨1, 0⟩ (1000 * coin - 10000)

/-- A block of the test network with its entry. -/
def testBlock (label : UInt32) (vtx : List CTransaction) : Linked :=
  (.labelled label (BitVec.ofNat 256 (label.toNat - 1)) 1000 0x1f00ffff vtx,
    .labelled label label.toNat 0 false 1000 0x1f00ffff)

/-- A block with a coinbase of its own height and further transactions. -/
def fillerBlock (label : UInt32) (vtx : List CTransaction) : Linked :=
  testBlock label (.labelledCoinBase (100 + label) 1000 [0x50 + label.toUInt8, 0]
    [⟨1000 * coin, [0x51]⟩] :: vtx)

/-- Twelve blocks: the coinbase of the first is spent in the eleventh, as soon as it
is mature, and repeated in the twelfth. -/
def repeatedCoinbase : List Linked :=
  testBlock 12 [repeated] :: fillerBlock 11 [spender] ::
    [10, 9, 8, 7, 6, 5, 4, 3, 2].map (fun label => fillerBlock label []) ++ [testBlock 1 [repeated]]

/-- A node whose block files hold the repeated coinbase. -/
def repeatedNode : Node :=
  .initial ⟨fun pos => if pos.nBlockPos = 1000 then some repeated else none, fun _ _ => none⟩ (fun _ => true) 1000

def repeatedGenesis : CBlockIndex := .labelled 0 0 0 false 1000 0x1f00ffff

/-- The rule that allows a fully spent transaction to be overwritten lets a coinbase
appear twice; its output is then consumed on the chain and unspent in the index,
without any hash collision. -/
theorem overwritten_coinbase :
    ∃ stack index, Runs (Env.labelled true)
        (fun _ _ block => ∀ tx ∈ block.vtx, tx ∈ repeatedCoinbase.flatMap fun linked => linked.1.vtx)
        stack index ∧
      Set.InjOn (Env.labelled true).txHash
        {tx | tx ∈ repeatedCoinbase.flatMap fun linked => linked.1.vtx} ∧
      (∃ pos, (repeated, pos) ∈ ledger stack) ∧
      (⟨(Env.labelled true).txHash repeated, 0⟩ : COutPoint) ∈ consumed (ledger stack) ∧
      slotAt index ⟨(Env.labelled true).txHash repeated, 0⟩ = some CDiskTxPos.null := by
  have succeeds : ((connectChain (Env.labelled true) repeatedNode repeatedGenesis repeatedCoinbase).map
      fun after => slotAt after.txdb.txIndex ⟨(Env.labelled true).txHash repeated, 0⟩) =
      some (some CDiskTxPos.null) := by decide +kernel
  obtain ⟨after, connected, unspent⟩ := Option.map_eq_some_iff.mp succeeds
  refine ⟨repeatedCoinbase, after.txdb.txIndex, connectChain_runs rfl ?_ connected, ?_, ?_, ?_, unspent⟩
  · intro index block pindex earlier suffix tx member
    exact List.mem_flatMap.mpr ⟨_, suffix.subset List.mem_cons_self, member⟩
  · have distinct : ∀ first ∈ repeatedCoinbase.flatMap fun linked => linked.1.vtx,
        ∀ second ∈ repeatedCoinbase.flatMap fun linked => linked.1.vtx,
          (Env.labelled true).txHash first = (Env.labelled true).txHash second → first = second := by
      decide +kernel
    exact fun first inFirst second inSecond => distinct first inFirst second inSecond
  · exact ⟨_, List.mem_append_left _ (List.mem_reverse.mpr List.mem_cons_self)⟩
  · decide +kernel

/-- The first eleven blocks obey the height rule, and the slot of the spent coinbase
is taken. -/
theorem no_double_spend_before_repetition :
    ∃ index, Runs (Env.labelled true)
        (HeightRule {tx | tx ∈ repeatedCoinbase.flatMap fun linked => linked.1.vtx})
        repeatedCoinbase.tail index ∧
      ∃ spent, slotAt index ⟨(Env.labelled true).txHash repeated, 0⟩ = some spent ∧
        spent.isNull = false := by
  have succeeds : (connectChain (Env.labelled true) repeatedNode repeatedGenesis
      repeatedCoinbase.tail).isSome = true := by decide +kernel
  obtain ⟨after, connected⟩ := Option.isSome_iff_exists.mp succeeds
  have heights : ∀ tail ∈ repeatedCoinbase.tail.tails, ∀ linked ∈ tail.head?,
      (Int32.ofNat tail.length).toInt = tail.tail.length + 1 ∧
        linked.1.checkCoinbaseHeight (Int32.ofNat tail.length) = true := by decide +kernel
  have runs : Runs (Env.labelled true)
      (HeightRule {tx | tx ∈ repeatedCoinbase.flatMap fun linked => linked.1.vtx})
      repeatedCoinbase.tail after.txdb.txIndex := by
    refine connectChain_runs rfl ?_ connected
    intro index block pindex earlier suffix
    refine ⟨fun tx member => ?_, _, heights _ ((List.mem_tails _ _).mpr suffix) _ rfl⟩
    exact List.mem_flatMap.mpr ⟨_, List.mem_of_mem_tail (suffix.subset List.mem_cons_self), member⟩
  have distinct : ∀ first ∈ repeatedCoinbase.flatMap fun linked => linked.1.vtx,
      ∀ second ∈ repeatedCoinbase.flatMap fun linked => linked.1.vtx,
        (Env.labelled true).txHash first = (Env.labelled true).txHash second → first = second := by
    decide +kernel
  obtain ⟨-, slots⟩ := no_double_spend
    (fun first inFirst second inSecond => distinct first inFirst second inSecond) runs
  obtain ⟨spent, holds, taken, -⟩ := slots repeated
    (CBlockIndex.txPos (testBlock 1 [repeated]).2 1081) (by decide +kernel) 0 (by decide)
  exact ⟨_, runs, spent, holds, taken.mpr (by decide +kernel)⟩

/-- The first block is connected and disconnected again. -/
theorem connect_disconnect_first :
    ∃ after restored, (testBlock 1 [repeated]).1.connectBlock (Env.labelled true) repeatedNode
        (testBlock 1 [repeated]).2 [repeatedGenesis] = some after ∧
      (testBlock 1 [repeated]).1.disconnectBlock (Env.labelled true) after [repeatedGenesis] =
        .ok restored ∧ restored.txdb.txIndex = repeatedNode.txdb.txIndex := by
  have succeeds : ((testBlock 1 [repeated]).1.connectBlock (Env.labelled true) repeatedNode
      (testBlock 1 [repeated]).2 [repeatedGenesis]).isSome = true := by decide +kernel
  obtain ⟨after, connected⟩ := Option.isSome_iff_exists.mp succeeds
  obtain ⟨restored, disconnected, same⟩ := (connect_disconnect_inverse (Env.labelled true)).1
    ⟨by decide +kernel, fun _ _ => rfl⟩ connected
  exact ⟨after, restored, connected, disconnected, same⟩

end Concrete

end InfiniteRicks
