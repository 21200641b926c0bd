import InfiniteRicks.SpentFlags
import InfiniteRicks.TxDb

/-!
# The repair of spent flags

`FixSpentCoins` (`wallet.cpp`) compares the spent flags of the wallet's own outputs with
the transaction index. Every repair sets one flag to what the index says, so a run
judges every output by the flags it started from. The writes to the wallet file are left out.
-/

namespace InfiniteRicks

/-- What `FixSpentCoins` reports. -/
structure SpentReport where
  nMismatchFound : Int64
  nBalanceInQuestion : Int
deriving DecidableEq

namespace SpentReport

def none : SpentReport := ⟨0, 0⟩

/-- `nMismatchFound++` and `nBalanceInQuestion += nValue`. -/
def add (report : SpentReport) (nValue : Int64) : SpentReport :=
  ⟨report.nMismatchFound + 1, report.nBalanceInQuestion + nValue.toInt⟩

end SpentReport

/-- What the index says of an output, which may be beyond the entry. -/
def CTxIndex.spends (txindex : CTxIndex) (n : Nat) : Bool :=
  match txindex.vSpent[n]? with
  | none => false
  | some pos => !pos.isNull

namespace CWalletTx

variable (keys : WalletKeys) (txindex : CTxIndex)

/-- One round of the loop of `FixSpentCoins` over the outputs of a transaction. `MarkUnspent` and `MarkSpent` throw
for an output that there is not. -/
def fixOutput (fCheckOnly : Bool) (state : SpentReport × CWalletTx) (entry : CTxOut × Nat) :
    Option (SpentReport × CWalletTx) :=
  let (report, wtx) := state
  let (txout, n) := entry
  if keys.isMine txout.scriptPubKey && wtx.isSpent n && !txindex.spends n then
    if fCheckOnly then some (report.add txout.nValue, wtx)
    else (wtx.markUnspent n).map fun wtx => (report.add txout.nValue, wtx)
  else if keys.isMine txout.scriptPubKey && !wtx.isSpent n && txindex.spends n then
    if fCheckOnly then some (report.add txout.nValue, wtx)
    else (wtx.markSpent n).map fun wtx => (report.add txout.nValue, wtx)
  else some (report, wtx)

end CWalletTx

section Repair

variable (env : Env) (keys : WalletKeys) (txdb : CTxDB)

/-- One round of the loop of `FixSpentCoins` over the transactions. -/
def fixTransaction (fCheckOnly : Bool) (report : SpentReport) (wtx : CWalletTx) : Option (SpentReport × CWalletTx) :=
  match txdb.fresh.readTxIndex (env.txHash wtx.tx) with
  | none => some (report, wtx)
  | some txindex => wtx.tx.vout.zipIdx.foldlM (CWalletTx.fixOutput keys txindex fCheckOnly) (report, wtx)

/-- `FixSpentCoins` over the transactions of the wallet, in the order of `mapWallet`: the report and the
transactions afterwards. -/
def fixSpentCoins (fCheckOnly : Bool) : SpentReport → List CWalletTx → Option (SpentReport × List CWalletTx)
  | report, [] => some (report, [])
  | report, wtx :: rest => do
      let (report, wtx) ← fixTransaction env keys txdb fCheckOnly report wtx
      let (report, rest) ← fixSpentCoins fCheckOnly report rest
      return (report, wtx :: rest)

end Repair

namespace CWalletTx

/-- Only the spent flags and the cached amount that depends on them may differ. -/
def SameCoin (before after : CWalletTx) : Prop :=
  after = { before with vfSpent := after.vfSpent, nAvailableCreditCached := after.nAvailableCreditCached }

variable {keys : WalletKeys} {txindex : CTxIndex} {before wtx after : CWalletTx} {entry : CTxOut × Nat}
  {report : SpentReport}

theorem SameCoin.refl (wtx : CWalletTx) : SameCoin wtx wtx := rfl

theorem SameCoin.trans (first : SameCoin before wtx) (second : SameCoin wtx after) : SameCoin before after := by
  rw [SameCoin] at first second ⊢
  rw [second, first]

theorem SameCoin.tx (same : SameCoin before after) : after.tx = before.tx := by
  rw [SameCoin] at same
  rw [same]

theorem sameCoin_setSpent {n : Nat} {fSpent : Bool} (done : wtx.setSpent n fSpent = some after) : SameCoin wtx after := by
  rw [setSpent] at done
  split_ifs at done
  · obtain rfl := Option.some.inj done
    rfl
  · obtain rfl := Option.some.inj done
    rfl

/-- An own output whose flag is not what the index says. -/
def mismatch (keys : WalletKeys) (txindex : CTxIndex) (wtx : CWalletTx) (entry : CTxOut × Nat) : Bool :=
  keys.isMine entry.1.scriptPubKey && (wtx.isSpent entry.2 != txindex.spends entry.2)

/-- The report after an output. -/
def judge (keys : WalletKeys) (txindex : CTxIndex) (wtx : CWalletTx) (report : SpentReport) (entry : CTxOut × Nat) :
    SpentReport :=
  if mismatch keys txindex wtx entry then report.add entry.1.nValue else report

/-- Without repair a round only reports. -/
theorem fixOutput_check :
    fixOutput keys txindex true (report, wtx) entry = some (judge keys txindex wtx report entry, wtx) := by
  rw [fixOutput, judge, mismatch]
  cases keys.isMine entry.1.scriptPubKey <;> cases wtx.isSpent entry.2 <;> cases txindex.spends entry.2 <;> rfl

theorem fixOutput_false :
    fixOutput keys txindex false (report, wtx) entry =
      if mismatch keys txindex wtx entry then
        (wtx.setSpent entry.2 (txindex.spends entry.2)).map fun after => (report.add entry.1.nValue, after)
      else some (report, wtx) := by
  rw [fixOutput, mismatch]
  cases keys.isMine entry.1.scriptPubKey <;> cases wtx.isSpent entry.2 <;> cases txindex.spends entry.2 <;> rfl

/-- With repair a round reports the same, and sets the flag of an own output to what the index says. -/
theorem fixOutput_repair (there : entry.2 < wtx.tx.vout.length) :
    ∃ after, fixOutput keys txindex false (report, wtx) entry = some (judge keys txindex wtx report entry, after) ∧
      SameCoin wtx after ∧ ∀ m < wtx.tx.vout.length, after.isSpent m =
        if m = entry.2 ∧ keys.isMine entry.1.scriptPubKey = true then txindex.spends m else wtx.isSpent m := by
  rw [fixOutput_false, judge]
  split_ifs with wrong
  · obtain ⟨after, done, -, flags⟩ := setSpent_spec there (txindex.spends entry.2)
    refine ⟨after, congrArg (Option.map _) done, sameCoin_setSpent done, fun m inside => ?_⟩
    have mine := (Bool.and_eq_true_iff.mp wrong).1
    rw [flags m inside]
    by_cases here : m = entry.2
    · rw [if_pos here, if_pos ⟨here, mine⟩, here]
    · rw [if_neg here, if_neg fun both => here both.1]
  · refine ⟨wtx, rfl, .refl wtx, fun m inside => ?_⟩
    split_ifs with here
    · rw [mismatch, here.2, Bool.true_and, bne_iff_ne, not_not] at wrong
      rw [here.1, wrong]
    · rfl

theorem judge_congr {other : CWalletTx} (same : wtx.isSpent entry.2 = other.isSpent entry.2) :
    judge keys txindex wtx report entry = judge keys txindex other report entry := by
  rw [judge, judge, mismatch, mismatch, same]

/-- Repairs of some outputs, each listed once: every output is judged by the flags at the start. -/
theorem fixOutputs_repair {entries : List (CTxOut × Nat)} (there : ∀ entry ∈ entries, entry.2 < wtx.tx.vout.length)
    (distinct : (entries.map Prod.snd).Nodup) :
    ∃ after, entries.foldlM (fixOutput keys txindex false) (report, wtx) =
        some (entries.foldl (judge keys txindex wtx) report, after) ∧ SameCoin wtx after ∧
      ∀ m < wtx.tx.vout.length, after.isSpent m =
        if ∃ entry ∈ entries, entry.2 = m ∧ keys.isMine entry.1.scriptPubKey = true then txindex.spends m
        else wtx.isSpent m := by
  induction entries generalizing wtx report with
  | nil =>
      refine ⟨wtx, rfl, .refl wtx, fun m _ => (if_neg ?_).symm⟩
      rintro ⟨entry, member, -⟩
      cases member
  | cons entry rest ih =>
      obtain ⟨fresh, distinct⟩ := List.nodup_cons.mp distinct
      obtain ⟨next, done, sameNext, flagsNext⟩ := @fixOutput_repair keys txindex wtx entry report
        (there entry List.mem_cons_self)
      have laterThere : ∀ other ∈ rest, other.2 < wtx.tx.vout.length := fun other member =>
        there other (List.mem_cons_of_mem _ member)
      have untouched : ∀ other ∈ rest, next.isSpent other.2 = wtx.isSpent other.2 := by
        intro other member
        rw [flagsNext other.2 (laterThere other member), if_neg]
        rintro ⟨same, -⟩
        exact fresh (same ▸ List.mem_map_of_mem member)
      obtain ⟨after, rested, same, flags⟩ := @ih next (judge keys txindex wtx report entry)
        (by rwa [sameNext.tx]) distinct
      have judged : rest.foldl (judge keys txindex next) (judge keys txindex wtx report entry) =
          (entry :: rest).foldl (judge keys txindex wtx) report :=
        List.foldl_ext _ _ _ fun report other member => judge_congr (untouched other member)
      refine ⟨after, ?_, sameNext.trans same, fun m inside => ?_⟩
      · rw [List.foldlM_cons, done, ← judged]
        exact rested
      · rw [flags m (by rwa [sameNext.tx]), flagsNext m inside]
        simp only [List.exists_mem_cons_iff, @eq_comm _ m entry.2]
        by_cases later : ∃ other ∈ rest, other.2 = m ∧ keys.isMine other.1.scriptPubKey = true
        · rw [if_pos later, if_pos (Or.inr later)]
        · rw [if_neg later]
          exact if_congr (or_iff_left later).symm rfl rfl

/-- Without repair nothing changes, and the report is that of the repairs. -/
theorem fixOutputs_check (entries : List (CTxOut × Nat)) :
    entries.foldlM (fixOutput keys txindex true) (report, wtx) =
      some (entries.foldl (judge keys txindex wtx) report, wtx) := by
  induction entries generalizing report with
  | nil => rfl
  | cons entry rest ih =>
      rw [List.foldlM_cons, fixOutput_check]
      exact ih

end CWalletTx

section Wallet

variable {env : Env} {keys : WalletKeys} {txdb : CTxDB} {wtx after : CWalletTx} {report : SpentReport}

/-- What a repair makes of a transaction. -/
structure Repaired (env : Env) (keys : WalletKeys) (txdb : CTxDB) (wtx after : CWalletTx) : Prop where
  same : CWalletTx.SameCoin wtx after
  own : ∀ txindex n txout, txdb.fresh.readTxIndex (env.txHash wtx.tx) = some txindex → wtx.tx.vout[n]? = some txout →
    keys.isMine txout.scriptPubKey = true → after.isSpent n = txindex.spends n
  other : ∀ n txout, wtx.tx.vout[n]? = some txout →
    (txdb.fresh.readTxIndex (env.txHash wtx.tx) = none ∨ keys.isMine txout.scriptPubKey = false) →
      after.isSpent n = wtx.isSpent n

/-- The report after a transaction. -/
def judgeTx (env : Env) (keys : WalletKeys) (txdb : CTxDB) (report : SpentReport) (wtx : CWalletTx) : SpentReport :=
  match txdb.fresh.readTxIndex (env.txHash wtx.tx) with
  | none => report
  | some txindex => wtx.tx.vout.zipIdx.foldl (wtx.judge keys txindex) report

theorem fixTransaction_check :
    fixTransaction env keys txdb true report wtx = some (judgeTx env keys txdb report wtx, wtx) := by
  rw [fixTransaction, judgeTx]
  cases txdb.fresh.readTxIndex (env.txHash wtx.tx) with
  | none => rfl
  | some txindex => exact CWalletTx.fixOutputs_check _

theorem fixTransaction_repair (env : Env) (keys : WalletKeys) (txdb : CTxDB) (report : SpentReport) (wtx : CWalletTx) :
    ∃ after, fixTransaction env keys txdb false report wtx = some (judgeTx env keys txdb report wtx, after) ∧
      Repaired env keys txdb wtx after := by
  rw [fixTransaction, judgeTx]
  cases indexed : txdb.fresh.readTxIndex (env.txHash wtx.tx) with
  | none =>
      refine ⟨wtx, rfl, .refl wtx, fun txindex n txout found => ?_, fun n txout _ _ => rfl⟩
      rw [indexed] at found
      cases found
  | some txindex =>
      have distinct : (wtx.tx.vout.zipIdx.map Prod.snd).Nodup := by
        rw [List.zipIdx_map_snd]
        exact List.nodup_range'
      obtain ⟨after, done, same, flags⟩ := @CWalletTx.fixOutputs_repair keys txindex wtx report _
        (fun entry member => List.snd_lt_of_mem_zipIdx member) distinct
      refine ⟨after, done, same, fun found n txout here output mine => ?_, fun n txout output untouched => ?_⟩
      · rw [indexed] at here
        obtain rfl := Option.some.inj here
        rw [flags n (List.getElem?_eq_some_iff.mp output).1,
          if_pos ⟨(txout, n), List.mk_mem_zipIdx_iff_getElem?.mpr output, rfl, mine⟩]
      · rw [flags n (List.getElem?_eq_some_iff.mp output).1, if_neg]
        rintro ⟨⟨other, _⟩, member, rfl, mine⟩
        obtain rfl := Option.some.inj (output.symm.trans (List.mk_mem_zipIdx_iff_getElem?.mp member))
        rcases untouched with absent | foreign
        · rw [indexed] at absent
          cases absent
        · rw [foreign] at mine
          cases mine

/-- After a repair there is nothing to report. -/
theorem Repaired.judgeTx (repaired : Repaired env keys txdb wtx after) (report : SpentReport) :
    judgeTx env keys txdb report after = report := by
  rw [InfiniteRicks.judgeTx, repaired.same.tx]
  cases indexed : txdb.fresh.readTxIndex (env.txHash wtx.tx) with
  | none => rfl
  | some txindex =>
      have agrees : ∀ entry ∈ wtx.tx.vout.zipIdx, CWalletTx.mismatch keys txindex after entry = false := by
        intro entry member
        rw [CWalletTx.mismatch]
        cases mine : keys.isMine entry.1.scriptPubKey with
        | false => rfl
        | true =>
            rw [repaired.own txindex entry.2 entry.1 indexed (List.mem_zipIdx_iff_getElem?.mp member) mine, bne_self_eq_false]
            rfl
      have kept : ∀ report, ∀ entry ∈ wtx.tx.vout.zipIdx, CWalletTx.judge keys txindex after report entry = report :=
        fun report entry member => if_neg (Bool.eq_false_iff.mp (agrees entry member))
      exact (List.foldl_ext _ (fun report _ => report) report kept).trans (List.foldl_fixed' (fun _ => rfl) _)

/-! ## The wallet -/

theorem fixSpentCoins_check (vCoins : List CWalletTx) (report : SpentReport) :
    fixSpentCoins env keys txdb true report vCoins = some (vCoins.foldl (InfiniteRicks.judgeTx env keys txdb) report, vCoins) := by
  induction vCoins generalizing report with
  | nil => rfl
  | cons wtx rest ih =>
      rw [fixSpentCoins, fixTransaction_check]
      exact congrArg (· >>= fun result => some (result.1, wtx :: result.2)) (ih _)

theorem fixSpentCoins_repair (vCoins : List CWalletTx) (report : SpentReport) :
    ∃ fixed, fixSpentCoins env keys txdb false report vCoins =
        some (vCoins.foldl (InfiniteRicks.judgeTx env keys txdb) report, fixed) ∧
      List.Forall₂ (Repaired env keys txdb) vCoins fixed := by
  induction vCoins generalizing report with
  | nil => exact ⟨[], rfl, .nil⟩
  | cons wtx rest ih =>
      obtain ⟨after, done, repaired⟩ := fixTransaction_repair env keys txdb report wtx
      obtain ⟨fixed, rested, each⟩ := ih (InfiniteRicks.judgeTx env keys txdb report wtx)
      refine ⟨after :: fixed, ?_, .cons repaired each⟩
      rw [fixSpentCoins, done]
      exact congrArg (· >>= fun result => some (result.1, after :: result.2)) rested

theorem judgeTx_repaired {vCoins fixed : List CWalletTx} (each : List.Forall₂ (Repaired env keys txdb) vCoins fixed)
    (report : SpentReport) : fixed.foldl (InfiniteRicks.judgeTx env keys txdb) report = report := by
  induction each with
  | nil => rfl
  | cons repaired _ ih =>
      rw [List.foldl_cons, repaired.judgeTx]
      exact ih

/-- A repair makes the flags of the own outputs of every indexed transaction agree with the index and changes no
other flag. A run after it, with or without repair, reports nothing, and a run without repair before it changes
nothing and reports the same. -/
theorem fixSpentCoins_converges (env : Env) (keys : WalletKeys) (txdb : CTxDB) (vCoins : List CWalletTx) :
    ∃ report fixed, fixSpentCoins env keys txdb false .none vCoins = some (report, fixed) ∧
      List.Forall₂ (Repaired env keys txdb) vCoins fixed ∧
      fixSpentCoins env keys txdb true .none vCoins = some (report, vCoins) ∧
      (∀ fCheckOnly, (fixSpentCoins env keys txdb fCheckOnly .none fixed).map Prod.fst = some .none) := by
  obtain ⟨fixed, done, each⟩ := @fixSpentCoins_repair env keys txdb vCoins .none
  refine ⟨_, fixed, done, each, fixSpentCoins_check vCoins .none, fun fCheckOnly => ?_⟩
  cases fCheckOnly with
  | true => rw [fixSpentCoins_check, Option.map_some, judgeTx_repaired each]
  | false =>
      obtain ⟨again, repeated, -⟩ := @fixSpentCoins_repair env keys txdb fixed .none
      rw [repeated, Option.map_some, judgeTx_repaired each]

end Wallet

end InfiniteRicks
