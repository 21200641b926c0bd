import InfiniteRicks.Consistency
import InfiniteRicks.Value

/-!
# Supply accounting

`ConnectBlock` adds up what the transactions of a block pay out and consume in 64-bit
accumulators, and the money supply of the entry from these. Every transaction is held to
`MoneyRange`, but the block is not: the accumulators carry the exact sums as long as the
block pays out at most `MAX_MONEY` in all and consumes at most `MAX_MONEY` in all, and no
further. Along a chain of such blocks `nMoneySupply` is the exact sum.
-/

namespace InfiniteRicks

open Ledger

/-- Exact value that a transaction consumes. -/
def consumedBy (s : Node) (index : TxIndexMap) (tx : CTransaction) : Int :=
  if tx.isCoinBase then 0 else inputsValue s index tx.vin

/-- Exact value that a list of transactions pays out. -/
def paidOut (vtx : List CTransaction) : Int := (vtx.map fun tx => outputsValue tx.vout).sum

/-- Exact value that transactions consume, each against the index of its turn. -/
def consumed (env : Env) (s : Node) : TxIndexMap → TxHistory → Int
  | _, [] => 0
  | index, (tx, pos) :: rest => consumedBy s index tx + consumed env s (applyTx env index tx pos) rest

/-- Exact fees that the ordinary transactions pay. -/
def feesOf (env : Env) (s : Node) (index : TxIndexMap) (entries : TxHistory) : Int :=
  -created env s CTransaction.isOrdinary index entries

namespace CBlock

/-- Transactions with the positions that `ConnectBlock` gives them, which do not advance
when the block is only checked. -/
def placedFrom (pindex : CBlockIndex) (fJustCheck : Bool) : UInt32 → List CTransaction → TxHistory
  | _, [] => []
  | nTxPos, tx :: rest =>
      (tx, pindex.txPos nTxPos) :: placedFrom pindex fJustCheck (nextTxPos nTxPos fJustCheck tx) rest

/-- The loop variables before the first transaction. -/
def loopStart (block : CBlock) (pindex : CBlockIndex) (fJustCheck : Bool) : ConnectState :=
  ⟨∅, 0, 0, 0, 0, 0, block.firstTxPos pindex fJustCheck⟩

/-- Exact value that the first transactions of a block consume. -/
def consumedIn (env : Env) (s : Node) (block : CBlock) (pindex : CBlockIndex) (fJustCheck : Bool)
    (vtx : List CTransaction) : Int :=
  consumed env s s.txdb.txIndex (placedFrom pindex fJustCheck (block.firstTxPos pindex fJustCheck) vtx)

/-- Exact fees of the first transactions of a block. -/
def feesIn (env : Env) (s : Node) (block : CBlock) (pindex : CBlockIndex) (fJustCheck : Bool)
    (vtx : List CTransaction) : Int :=
  feesOf env s s.txdb.txIndex (placedFrom pindex fJustCheck (block.firstTxPos pindex fJustCheck) vtx)

/-- The money supply of the parent. -/
def supplyBefore (s : Node) (pprev : BlockPtr) : Int :=
  (pprev.head?.map fun prev => s.nMoneySupply prev.hash).getD 0

/-- The accounts of an accepted block are exact, and so is every accumulator after every
transaction. -/
structure Exact (env : Env) (s : Node) (block : CBlock) (pindex : CBlockIndex) (pprev : BlockPtr)
    (fJustCheck : Bool) (after : Node) : Prop where
  nMint : (after.nMint pindex.hash).toInt =
    paidOut block.vtx - block.consumedIn env s pindex fJustCheck block.vtx +
      block.feesIn env s pindex fJustCheck block.vtx
  nMoneySupply : after.nMoneySupply pindex.hash =
    supplyBefore s pprev + paidOut block.vtx - block.consumedIn env s pindex fJustCheck block.vtx
  unwrapped : ∀ done acc, done <+: block.vtx →
    connectTxs env s pindex pprev fJustCheck done (block.loopStart pindex fJustCheck) = some acc →
      acc.nValueOut.toInt = paidOut done ∧
        acc.nValueIn.toInt = block.consumedIn env s pindex fJustCheck done ∧
        acc.nFees.toInt = block.feesIn env s pindex fJustCheck done

/-- A block pays out at most `MAX_MONEY` in all and consumes at most `MAX_MONEY` in all. -/
def SumsFit (env : Env) (s : Node) (block : CBlock) (pindex : CBlockIndex) (fJustCheck : Bool) : Prop :=
  paidOut block.vtx ≤ maxMoney.toInt ∧
    block.consumedIn env s pindex fJustCheck block.vtx ≤ maxMoney.toInt

end CBlock

section Wrapping

/-- The exact value of a 64-bit amount wraps back to it. -/
theorem add_ofInt_sum (start : Int64) (first second : Int) :
    start + Int64.ofInt first + Int64.ofInt second = start + Int64.ofInt (first + second) := by
  rw [Int64.add_assoc, ← Int64.ofInt_add]

end Wrapping

namespace CBlock

variable {env : Env} {s after : Node} {block : CBlock} {pindex : CBlockIndex} {pprev : BlockPtr}
  {fJustCheck : Bool}

/-- What one round of the transaction loop adds to the two sums. -/
theorem connectTx_sums {acc next : ConnectState} {tx : CTransaction}
    (step : connectTx env s pindex pprev fJustCheck acc tx = some next) :
    (0 ≤ outputsValue tx.vout ∧ next.nValueOut = acc.nValueOut + Int64.ofInt (outputsValue tx.vout)) ∧
      0 ≤ consumedBy s (overlay acc.mapQueuedChanges s.txdb.txIndex) tx ∧
      next.nValueIn =
        acc.nValueIn + Int64.ofInt (consumedBy s (overlay acc.mapQueuedChanges s.txdb.txIndex) tx) := by
  have zero : Int64.toInt 0 = 0 := rfl
  obtain ⟨-, -, ⟨base, nTxValueOut, value, _, _, ⟨sumIn, sumOut⟩, _⟩ |
    ⟨ordinary, inputs, nTxValueIn, nTxValueOut, queued, fetched, valueIn, valueOut, connected, _, _,
      ⟨sumIn, sumOut⟩, _⟩⟩ := connectTx_cases step
  · obtain ⟨paid, nonneg⟩ := CTransaction.addValueOut_exact (by decide) value
    rw [zero, Int.zero_add] at paid
    have nothing : Int64.ofInt 0 = 0 := rfl
    rw [sumOut, sumIn, ← paid, Int64.ofInt_toInt, consumedBy, base]
    simp [nonneg, nothing]
  · obtain ⟨paid, nonneg⟩ := CTransaction.addValueOut_exact (by decide) valueOut
    rw [zero, Int.zero_add] at paid
    obtain ⟨spent, spentNonneg, -⟩ := CTransaction.connectInputs_value connected ordinary
      (CTransaction.fetchInputs_located fetched) valueIn valueOut
    rw [sumOut, sumIn, ← paid, Int64.ofInt_toInt, consumedBy, ordinary, if_neg Bool.false_ne_true,
      ← spent, Int64.ofInt_toInt]
    exact ⟨⟨nonneg, rfl⟩, spentNonneg, rfl⟩

/-- The loop sums up exactly, up to wrapping. -/
theorem connectTxs_sums {vtx : List CTransaction} {acc final : ConnectState}
    (loop : connectTxs env s pindex pprev fJustCheck vtx acc = some final) :
    final.nValueOut = acc.nValueOut + Int64.ofInt (paidOut vtx) ∧
      final.nValueIn = acc.nValueIn + Int64.ofInt (consumed env s
        (overlay acc.mapQueuedChanges s.txdb.txIndex) (placedFrom pindex fJustCheck acc.nTxPos vtx)) ∧
      final.nFees = acc.nFees + Int64.ofInt (feesOf env s
        (overlay acc.mapQueuedChanges s.txdb.txIndex) (placedFrom pindex fJustCheck acc.nTxPos vtx)) := by
  induction vtx generalizing acc with
  | nil =>
      simp only [connectTxs, Option.some.injEq] at loop
      subst loop
      have zero : Int64.ofInt 0 = 0 := rfl
      simp [paidOut, placedFrom, consumed, feesOf, created, zero]
  | cons tx rest ih =>
      simp only [connectTxs] at loop
      split at loop
      · cases loop
      rename_i next step
      obtain ⟨⟨-, sumOut⟩, -, sumIn⟩ := connectTx_sums step
      obtain ⟨-, fees, -⟩ := connectTx_value step
      obtain ⟨-, place, -⟩ := connectTx_cases step
      obtain ⟨tailOut, tailIn, tailFees⟩ := ih loop
      rw [(connectTx_overlay step).2, place] at tailIn tailFees
      refine ⟨?_, ?_, ?_⟩
      · rw [tailOut, sumOut, add_ofInt_sum]
        rfl
      · rw [tailIn, sumIn, add_ofInt_sum]
        rfl
      · rw [tailFees, fees, add_ofInt_sum]
        simp only [feesOf, placedFrom, created]
        congr 2
        split <;> omega

/-- Neither sum falls as the loop goes on, and the fees lie within what is consumed. -/
theorem connectTxs_bounds {vtx : List CTransaction} {acc final : ConnectState}
    (loop : connectTxs env s pindex pprev fJustCheck vtx acc = some final) :
    0 ≤ paidOut vtx ∧
      0 ≤ feesOf env s (overlay acc.mapQueuedChanges s.txdb.txIndex)
        (placedFrom pindex fJustCheck acc.nTxPos vtx) ∧
      feesOf env s (overlay acc.mapQueuedChanges s.txdb.txIndex)
          (placedFrom pindex fJustCheck acc.nTxPos vtx) ≤
        consumed env s (overlay acc.mapQueuedChanges s.txdb.txIndex)
          (placedFrom pindex fJustCheck acc.nTxPos vtx) := by
  induction vtx generalizing acc with
  | nil => simp [paidOut, placedFrom, consumed, feesOf, created]
  | cons tx rest ih =>
      simp only [connectTxs] at loop
      split at loop
      · cases loop
      rename_i next step
      obtain ⟨⟨outNonneg, -⟩, inNonneg, -⟩ := connectTx_sums step
      obtain ⟨covered, -, -⟩ := connectTx_value step
      obtain ⟨-, place, -⟩ := connectTx_cases step
      obtain ⟨tailOut, tailFees, tailIn⟩ := ih loop
      rw [(connectTx_overlay step).2, place] at tailFees tailIn
      have split : createdBy s (overlay acc.mapQueuedChanges s.txdb.txIndex) tx = outputsValue tx.vout -
          consumedBy s (overlay acc.mapQueuedChanges s.txdb.txIndex) tx := rfl
      have head : paidOut (tx :: rest) = outputsValue tx.vout + paidOut rest := rfl
      simp only [feesOf] at tailFees tailIn
      simp only [feesOf, placedFrom, created, consumed]
      refine ⟨by omega, ?_, ?_⟩
      all_goals
        split_ifs with ordinary
        · have := covered ordinary
          omega
        · omega

/-- The sums of the first transactions are at most those of the whole block. -/
theorem connectTxs_prefix {done more : List CTransaction} {acc final : ConnectState}
    (loop : connectTxs env s pindex pprev fJustCheck (done ++ more) acc = some final) :
    paidOut done ≤ paidOut (done ++ more) ∧
      consumed env s (overlay acc.mapQueuedChanges s.txdb.txIndex)
          (placedFrom pindex fJustCheck acc.nTxPos done) ≤
        consumed env s (overlay acc.mapQueuedChanges s.txdb.txIndex)
          (placedFrom pindex fJustCheck acc.nTxPos (done ++ more)) := by
  induction done generalizing acc with
  | nil =>
      obtain ⟨outNonneg, feesNonneg, feesLe⟩ := connectTxs_bounds loop
      exact ⟨outNonneg, feesNonneg.trans feesLe⟩
  | cons tx rest ih =>
      simp only [List.cons_append, connectTxs] at loop
      split at loop
      · cases loop
      rename_i next step
      obtain ⟨-, place, -⟩ := connectTx_cases step
      obtain ⟨tailOut, tailIn⟩ := ih loop
      rw [(connectTx_overlay step).2, place] at tailIn
      exact ⟨Int.add_le_add_left tailOut _, Int.add_le_add_left tailIn _⟩

/-- What an accepted block has done to the sums of its entry. -/
theorem connectBlock_sums (connected : block.connectBlock env s pindex pprev fJustCheck = some after) :
    ∃ acc, connectTxs env s pindex pprev fJustCheck block.vtx (block.loopStart pindex fJustCheck) = some acc ∧
      after.nMint = Function.update s.nMint pindex.hash (acc.nValueOut - acc.nValueIn + acc.nFees) ∧
      after.nMoneySupply = Function.update s.nMoneySupply pindex.hash
        (supplyBefore s pprev + acc.nValueOut.toInt - acc.nValueIn.toInt) := by
  simp only [connectBlock] at connected
  split at connected
  · cases connected
  split at connected
  · cases connected
  rename_i acc loop
  split at connected
  · rw [Option.some.injEq] at connected
    refine ⟨acc, loop, ?_⟩
    subst connected
    cases fJustCheck
    · exact ⟨rfl, rfl⟩
    · exact ⟨rfl, rfl⟩
  · cases connected

/-- The accumulators after the first transactions, as exact sums that may wrap. -/
theorem loopStart_sums {done : List CTransaction} {acc : ConnectState}
    (loop : connectTxs env s pindex pprev fJustCheck done (block.loopStart pindex fJustCheck) = some acc) :
    acc.nValueOut = Int64.ofInt (paidOut done) ∧
      acc.nValueIn = Int64.ofInt (block.consumedIn env s pindex fJustCheck done) ∧
      acc.nFees = Int64.ofInt (block.feesIn env s pindex fJustCheck done) := by
  obtain ⟨sumOut, sumIn, fees⟩ := connectTxs_sums loop
  simp only [loopStart, overlay_empty, Int64.zero_add] at sumOut sumIn fees
  exact ⟨sumOut, sumIn, fees⟩

/-- The accumulators of a block whose totals are in range are exact after every transaction. -/
theorem SumsFit.unwrapped {final acc : ConnectState} {done : List CTransaction}
    (fits : block.SumsFit env s pindex fJustCheck)
    (loop : connectTxs env s pindex pprev fJustCheck block.vtx (block.loopStart pindex fJustCheck) = some final)
    (first : done <+: block.vtx)
    (partly : connectTxs env s pindex pprev fJustCheck done (block.loopStart pindex fJustCheck) = some acc) :
    acc.nValueOut.toInt = paidOut done ∧
      acc.nValueIn.toInt = block.consumedIn env s pindex fJustCheck done ∧
      acc.nFees.toInt = block.feesIn env s pindex fJustCheck done := by
  obtain ⟨sumOut, sumIn, fees⟩ := loopStart_sums partly
  obtain ⟨outNonneg, feesNonneg, feesLe⟩ := connectTxs_bounds partly
  obtain ⟨more, whole⟩ := first
  rw [← whole] at loop
  obtain ⟨outLe, inLe⟩ := connectTxs_prefix loop
  simp only [loopStart, overlay_empty, whole] at feesNonneg feesLe outLe inLe
  change _ ≤ block.consumedIn env s pindex fJustCheck done at feesLe
  change block.consumedIn env s pindex fJustCheck done ≤ block.consumedIn env s pindex fJustCheck block.vtx
    at inLe
  change 0 ≤ block.feesIn env s pindex fJustCheck done at feesNonneg
  change block.feesIn env s pindex fJustCheck done ≤ _ at feesLe
  obtain ⟨outFits, inFits⟩ := fits
  rw [sumOut, sumIn, fees]
  exact ⟨toInt_ofInt_eq (by omega) (outLe.trans outFits), toInt_ofInt_eq (by omega) (inLe.trans inFits),
    toInt_ofInt_eq (by omega) (by omega)⟩

/-- The accounts of an accepted block are exact when and only when what it pays out and
what it consumes are in range. -/
theorem exact_iff_sumsFit (connected : block.connectBlock env s pindex pprev fJustCheck = some after) :
    block.Exact env s pindex pprev fJustCheck after ↔ block.SumsFit env s pindex fJustCheck := by
  obtain ⟨acc, loop, mint, supply⟩ := connectBlock_sums connected
  constructor
  · intro exact
    obtain ⟨sumOut, sumIn, -⟩ := exact.unwrapped _ _ List.prefix_rfl loop
    have outLt := acc.nValueOut.toInt_lt
    have inLt := acc.nValueIn.toInt_lt
    refine ⟨?_, ?_⟩
    · rw [← sumOut, maxMoney_toInt]
      omega
    · rw [← sumIn, maxMoney_toInt]
      omega
  · intro fits
    obtain ⟨sumOut, sumIn, fees⟩ := fits.unwrapped loop List.prefix_rfl loop
    obtain ⟨wrapOut, wrapIn, wrapFees⟩ := loopStart_sums loop
    obtain ⟨outNonneg, feesNonneg, feesLe⟩ := connectTxs_bounds loop
    simp only [loopStart, overlay_empty] at feesNonneg feesLe
    change 0 ≤ block.feesIn env s pindex fJustCheck block.vtx at feesNonneg
    change block.feesIn env s pindex fJustCheck block.vtx ≤ block.consumedIn env s pindex fJustCheck block.vtx
      at feesLe
    obtain ⟨outFits, inFits⟩ := fits
    refine ⟨?_, ?_, fun done partly first => SumsFit.unwrapped ⟨outFits, inFits⟩ loop first⟩
    · rw [mint, Function.update_self, wrapOut, wrapIn, wrapFees, ← Int64.ofInt_sub, ← Int64.ofInt_add]
      rw [maxMoney_toInt] at outFits inFits
      exact toInt_ofInt_eq (by omega) (by rw [maxMoney_toInt]; omega)
    · rw [supply, Function.update_self, sumOut, sumIn]

end CBlock

/-- Entries on the main chain above genesis, newest first, with the exact value that each
created when it was connected. -/
abbrev Books := List (CBlockIndex × Int)

/-- The main chain of the books. -/
def Books.chain {env : Env} (tree : BlockTree env) (books : Books) : BlockPtr :=
  books.map Prod.fst ++ [tree.genesis]

/-- Runs of `ConnectBlock` and `DisconnectBlock` along the main chain in which the totals of
every connected block are in range. Genesis is never connected and has no supply. Between
two calls anything may change but the supply of the entries on the main chain. -/
inductive Accounted {env : Env} (tree : BlockTree env) : Node → Books → Prop
  | genesis {s : Node} (none : s.nMoneySupply tree.genesis.hash = 0) : Accounted tree s []
  | connect {s after : Node} {entry : CBlockIndex} {books : Books} (earlier : Accounted tree s books)
      (member : tree.mem (entry :: books.chain tree))
      (connected : (tree.block entry).connectBlock env s entry (books.chain tree) = some after)
      (fits : (tree.block entry).SumsFit env s entry false) :
      Accounted tree after
        ((entry, paidOut (tree.block entry).vtx -
          (tree.block entry).consumedIn env s entry false (tree.block entry).vtx) :: books)
  | disconnect {s after : Node} {entry : CBlockIndex} {value : Int} {books : Books}
      (earlier : Accounted tree s ((entry, value) :: books))
      (disconnected : (tree.block entry).disconnectBlock env s (books.chain tree) = .ok after) :
      Accounted tree after books
  | outside {s after : Node} {books : Books} (earlier : Accounted tree s books)
      (same : ∀ entry ∈ books.chain tree, after.nMoneySupply entry.hash = s.nMoneySupply entry.hash) :
      Accounted tree after books

/-- The supply of every entry on the main chain is what the chain up to it has created. -/
def Balanced {env : Env} (tree : BlockTree env) (s : Node) : Books → Prop
  | [] => s.nMoneySupply tree.genesis.hash = 0
  | (entry, value) :: books =>
      s.nMoneySupply entry.hash = (value :: books.map Prod.snd).sum ∧ Balanced tree s books

section Chains

variable {env : Env} {tree : BlockTree env} {s after : Node} {books : Books}

/-- The supply of the newest entry is the whole sum. -/
theorem Balanced.supplyBefore (balanced : Balanced tree s books) :
    CBlock.supplyBefore s (books.chain tree) = (books.map Prod.snd).sum := by
  cases books with
  | nil => exact balanced
  | cons line books => exact balanced.1

/-- Only the supply of the entries on the main chain matters. -/
theorem Balanced.of_same (balanced : Balanced tree s books)
    (same : ∀ entry ∈ books.chain tree, after.nMoneySupply entry.hash = s.nMoneySupply entry.hash) :
    Balanced tree after books := by
  induction books with
  | nil => exact (same _ (List.mem_singleton_self _)).trans balanced
  | cons line books ih =>
      refine ⟨(same _ List.mem_cons_self).trans balanced.1, ih balanced.2 ?_⟩
      intro entry member
      exact same entry (List.mem_cons_of_mem _ member)

/-- Connecting a block whose totals are in range writes the next line of the books. -/
theorem Balanced.connect {entry : CBlockIndex} (balanced : Balanced tree s books)
    (member : tree.mem (entry :: books.chain tree))
    (connected : (tree.block entry).connectBlock env s entry (books.chain tree) = some after)
    (fits : (tree.block entry).SumsFit env s entry false) :
    Balanced tree after ((entry, paidOut (tree.block entry).vtx -
      (tree.block entry).consumedIn env s entry false (tree.block entry).vtx) :: books) := by
  have exact := (CBlock.exact_iff_sumsFit connected).mpr fits
  obtain ⟨acc, -, -, supply⟩ := CBlock.connectBlock_sums connected
  refine ⟨?_, balanced.of_same ?_⟩
  · rw [exact.nMoneySupply, balanced.supplyBefore, List.sum_cons]
    omega
  · -- The hash of the new entry names none of its ancestors.
    intro ancestor below
    have distinct := BlockTree.distinct member
    rw [DistinctHashes, List.map_cons, List.nodup_cons] at distinct
    have other : ancestor.hash ≠ entry.hash := by
      intro same
      exact distinct.1 (same ▸ List.mem_map_of_mem below)
    rw [supply, Function.update_of_ne other]

/-- `DisconnectBlock` leaves the sums of the entries alone. -/
theorem nMoneySupply_of_disconnectBlock {block : CBlock} {pprev : BlockPtr}
    (disconnected : block.disconnectBlock env s pprev = .ok after) : after.nMoneySupply = s.nMoneySupply := by
  simp only [CBlock.disconnectBlock] at disconnected
  split at disconnected
  · cases disconnected
  · cases disconnected
    rfl

theorem balanced_of_accounted (accounted : Accounted tree s books) : Balanced tree s books := by
  induction accounted with
  | genesis none => exact none
  | connect _ member connected fits ih => exact ih.connect member connected fits
  | disconnect _ disconnected ih =>
      refine Balanced.of_same ih.2 ?_
      intro entry _
      rw [nMoneySupply_of_disconnectBlock disconnected]
  | outside _ same ih => exact ih.of_same same

end Chains

/-- The accounts of an accepted block are exact, with no accumulator wrapping on the way, if
and only if the exact value that its transactions pay out is at most `MAX_MONEY` in all and
so is the value they consume. Along every chain of such blocks the supply of each entry is
the exact sum of what the blocks up to it have created. -/
theorem supply_exact_iff (env : Env) :
    (∀ (s after : Node) (block : CBlock) (pindex : CBlockIndex) (pprev : BlockPtr)
        (fJustCheck : Bool), block.connectBlock env s pindex pprev fJustCheck = some after →
      (block.Exact env s pindex pprev fJustCheck after ↔ block.SumsFit env s pindex fJustCheck)) ∧
    ∀ (tree : BlockTree env) (s : Node) (books : Books), Accounted tree s books →
      Balanced tree s books :=
  ⟨fun _ _ _ _ _ _ connected => CBlock.exact_iff_sumsFit connected,
    fun _ _ _ accounted => balanced_of_accounted accounted⟩

section Concrete

/-- A block with one coinbase on top of genesis. -/
theorem supply_exact_fork :
    ∃ after, (forkTree.block (forkEntry 1 1)).connectBlock (Env.labelled true) (smallInitial forkBlocks)
        (forkEntry 1 1) forkRoot = some after ∧
      (forkTree.block (forkEntry 1 1)).Exact (Env.labelled true) (smallInitial forkBlocks) (forkEntry 1 1)
        forkRoot false after ∧
      Balanced forkTree after [(forkEntry 1 1, 1000 * coin.toInt)] := by
  have succeeds : ((forkTree.block (forkEntry 1 1)).connectBlock (Env.labelled true)
      (smallInitial forkBlocks) (forkEntry 1 1) forkRoot).isSome = true := by decide +kernel
  obtain ⟨after, connected⟩ := Option.isSome_iff_exists.mp succeeds
  have fits : (forkTree.block (forkEntry 1 1)).SumsFit (Env.labelled true) (smallInitial forkBlocks)
      (forkEntry 1 1) false := ⟨by decide +kernel, by decide +kernel⟩
  have member : forkTree.mem (forkEntry 1 1 :: Books.chain forkTree []) :=
    List.mem_cons_of_mem _ List.mem_cons_self
  have accounted : Accounted forkTree after _ :=
    .connect (.genesis (s := smallInitial forkBlocks) rfl) member connected fits
  have total : paidOut (forkTree.block (forkEntry 1 1)).vtx - (forkTree.block (forkEntry 1 1)).consumedIn
      (Env.labelled true) (smallInitial forkBlocks) (forkEntry 1 1) false
      (forkTree.block (forkEntry 1 1)).vtx = 1000 * coin.toInt := by decide +kernel
  rw [total] at accounted
  exact ⟨after, connected, ((supply_exact_iff _).1 _ _ _ _ _ _ connected).mpr fits,
    (supply_exact_iff _).2 _ _ _ accounted⟩

/-- A confirmed transaction that pays out all there can be. -/
def treasury : CTransaction := .labelledSpend 50 900 ⟨49, 0⟩ maxMoney

/-- A node that has `treasury` indexed, unspent, and in its block files. -/
def treasuryNode : Node :=
  let pos : CDiskTxPos := ⟨1, 500, 581, fundedPos_nullUnique⟩
  { Node.initial ⟨fun at_ => if at_ = pos then some treasury else none, fun _ _ => none⟩
      (fun _ => true) 1000 with
    txdb := ⟨fun key => if key = .tx 50 then some (.txIndex (CTxIndex.new pos 1)) else none, none,
      fun _ => true, 0⟩ }

/-- A proof-of-work block that moves the treasury, less the minimum fee. -/
def treasuryBlock : CBlock :=
  .labelled 1 0 1000 0x1e0fffff [.labelledCoinBase 60 1000 [0x51, 0] [⟨1000 * coin, [0x51]⟩],
    .labelledSpend 61 1000 ⟨50, 0⟩ (maxMoney - 10000)]

/-- The block passes every test. Together with the coinbase the accumulator of the value out
wraps, and the supply is short by the width of the accumulator. -/
theorem treasuryBlock_not_exact :
    ∃ after, treasuryBlock.connectBlock (Env.labelled false) treasuryNode workEntry [workGenesis] = some after ∧
      ¬treasuryBlock.Exact (Env.labelled false) treasuryNode workEntry [workGenesis] false after ∧
      after.nMoneySupply workEntry.hash =
        CBlock.supplyBefore treasuryNode [workGenesis] + paidOut treasuryBlock.vtx -
          treasuryBlock.consumedIn (Env.labelled false) treasuryNode workEntry false treasuryBlock.vtx -
          2 ^ 64 := by
  have succeeds : (treasuryBlock.connectBlock (Env.labelled false) treasuryNode workEntry
      [workGenesis]).any (fun after => decide (after.nMoneySupply workEntry.hash =
        CBlock.supplyBefore treasuryNode [workGenesis] + paidOut treasuryBlock.vtx -
          treasuryBlock.consumedIn (Env.labelled false) treasuryNode workEntry false treasuryBlock.vtx -
          2 ^ 64)) = true := by decide +kernel
  obtain ⟨after, connected, short⟩ := (Option.any_eq_true _ _).mp succeeds
  have supply := of_decide_eq_true short
  refine ⟨after, connected, ?_, supply⟩
  intro exact
  rw [exact.nMoneySupply] at supply
  omega

end Concrete

end InfiniteRicks
