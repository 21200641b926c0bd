import InfiniteRicks.AccountsSpec
import InfiniteRicks.WalletCache

/-!
# Cached amounts of any age

A debit or a change may have been cached before the wallet knew what it depends on. Still every cached amount
has passed the range tests, and the cached credits are those of the outputs: `credits_always_current` is about
every run. What all operations keep of a single transaction, they keep of the wallet.
-/

namespace InfiniteRicks

open AccountWallet

namespace WalletCoins

/-- The cached amounts are such as a query has put there: a debit may be an old one, a credit is that of the outputs. -/
structure Computed (keys : WalletKeys) (wtx : CWalletTx) : Prop where
  debit : ∀ {nDebit}, wtx.nDebitCached = some nDebit → 0 ≤ nDebit.toInt
  credit : ∀ {nCredit}, wtx.nCreditCached = some nCredit → getCreditTx keys wtx.tx = some nCredit
  change : ∀ {nChange}, wtx.nChangeCached = some nChange → 0 ≤ nChange.toInt

/-- Every transaction of the wallet has computed amounts. -/
def AllComputed (keys : WalletKeys) (w : WalletCoins) : Prop :=
  ∀ hash wtx, w.mapWallet hash = some wtx → Computed keys wtx

variable {env : Env} {keys : WalletKeys} {w : WalletCoins} {wtx : CWalletTx}

/-! ## Answers -/

theorem sumOutputs_exact {counts : CTxOut → Bool} {vout : List CTxOut} {sum : Int64}
    (summed : sumOutputs counts vout = some sum) : sum.toInt = valueOf counts vout ∧ 0 ≤ sum.toInt := by
  have values : ((vout.map fun txout => if counts txout then txout.nValue else 0).map Int64.toInt).sum =
      valueOf counts vout := by
    clear summed
    induction vout with
    | nil => rfl
    | cons txout rest ih =>
        rw [List.map_cons, List.map_cons, List.sum_cons, ih, valueOf_cons, apply_ite Int64.toInt, Int64.toInt_zero]
  unfold sumOutputs at summed
  split at summed
  · rw [← values]
    exact sumMoney_exact summed
  · cases summed

theorem Computed.getDebit_nonneg (computed : Computed keys wtx) {nDebit : Int64}
    (debit : (w.getDebit keys wtx).1 = some nDebit) : 0 ≤ nDebit.toInt := by
  unfold WalletCoins.getDebit at debit
  split at debit
  · obtain rfl := Option.some.inj debit
    exact le_rfl
  · split at debit
    · rename_i cached
      obtain rfl := Option.some.inj debit
      exact computed.debit cached
    · cases summed : w.getDebitTx keys wtx.tx with
      | none =>
          rw [summed] at debit
          cases debit
      | some sum =>
          rw [summed] at debit
          obtain rfl := Option.some.inj debit
          exact (sumMoney_exact summed).2

theorem Computed.getCredit_eq (computed : Computed keys wtx) (mature : w.immature wtx = false) {nCredit : Int64}
    (credit : (w.getCredit keys wtx true).1 = some nCredit) : getCreditTx keys wtx.tx = some nCredit := by
  unfold WalletCoins.getCredit at credit
  rw [mature, if_neg Bool.false_ne_true] at credit
  split at credit
  · rename_i cached
    obtain rfl := Option.some.inj credit
    exact computed.credit cached
  · cases summed : getCreditTx keys wtx.tx with
    | none =>
        rw [summed] at credit
        cases credit
    | some sum =>
        rw [summed] at credit
        exact credit

theorem Computed.getChange_some (computed : Computed keys wtx) {nValueOut : Int64}
    (valueOut : wtx.tx.getValueOut = some nValueOut) :
    ∃ nChange, (w.getChange keys wtx).1 = some nChange ∧ 0 ≤ nChange.toInt := by
  unfold WalletCoins.getChange
  split
  · rename_i cached
    exact ⟨_, rfl, computed.change cached⟩
  · obtain ⟨nChange, summed⟩ := Option.isSome_iff_exists.mp (sumOutputs_isSome (w.isChange keys) valueOut)
    rw [getChangeTx, summed]
    exact ⟨nChange, rfl, (sumOutputs_exact summed).2⟩

/-! ## Entries -/

theorem Computed.congr {after : CWalletTx} (computed : Computed keys wtx) (tx : after.tx = wtx.tx)
    (debit : after.nDebitCached = wtx.nDebitCached) (credit : after.nCreditCached = wtx.nCreditCached)
    (change : after.nChangeCached = wtx.nChangeCached) : Computed keys after where
  debit cached := computed.debit (debit ▸ cached)
  credit cached := by
    rw [tx]
    exact computed.credit (credit ▸ cached)
  change cached := computed.change (change ▸ cached)

theorem Computed.of_none (debit : wtx.nDebitCached = none) (credit : wtx.nCreditCached = none)
    (change : wtx.nChangeCached = none) : Computed keys wtx where
  debit cached := by
    rw [debit] at cached
    cases cached
  credit cached := by
    rw [credit] at cached
    cases cached
  change cached := by
    rw [change] at cached
    cases cached

theorem Computed.markDirty : Computed keys wtx.markDirty := .of_none rfl rfl rfl

theorem Computed.setSpent (computed : Computed keys wtx) {n : Nat} {fSpent : Bool} {after : CWalletTx}
    (done : wtx.setSpent n fSpent = some after) : Computed keys after := by
  unfold CWalletTx.setSpent at done
  split at done
  · cases done
  · split at done <;> exact Option.some.inj done ▸ computed.congr rfl rfl rfl rfl

theorem Computed.getDebit (computed : Computed keys wtx) : Computed keys (w.getDebit keys wtx).2 := by
  unfold WalletCoins.getDebit
  split
  · exact computed
  · split
    · exact computed
    · cases summed : w.getDebitTx keys wtx.tx with
      | none => exact computed
      | some sum =>
          exact ⟨fun cached => Option.some.inj cached ▸ (sumMoney_exact summed).2, computed.credit, computed.change⟩

theorem Computed.getCredit (computed : Computed keys wtx) (fUseCache : Bool) :
    Computed keys (w.getCredit keys wtx fUseCache).2 := by
  unfold WalletCoins.getCredit
  split
  · exact computed
  · split
    · exact computed
    · cases summed : getCreditTx keys wtx.tx with
      | none => exact computed
      | some sum => exact ⟨computed.debit, fun cached => summed.trans cached, computed.change⟩

theorem Computed.getAvailableCredit (computed : Computed keys wtx) (fUseCache : Bool) :
    Computed keys (w.getAvailableCredit keys wtx fUseCache).2 := by
  unfold WalletCoins.getAvailableCredit
  split
  · exact computed
  · split
    · exact computed
    · split
      · exact computed.congr rfl rfl rfl rfl
      · exact computed

theorem Computed.getChange (computed : Computed keys wtx) : Computed keys (w.getChange keys wtx).2 := by
  unfold WalletCoins.getChange
  split
  · exact computed
  · cases summed : w.getChangeTx keys wtx.tx with
    | none => exact computed
    | some sum =>
        exact ⟨computed.debit, computed.credit, fun cached => Option.some.inj cached ▸ (sumOutputs_exact summed).2⟩

theorem Computed.merge (wtxIn : CWalletTx) : Computed keys (wtx.markDirty.merge wtxIn) := by
  unfold CWalletTx.merge CWalletTx.updateSpent
  refine .of_none ?_ ?_ ?_ <;> dsimp only <;> split <;> split <;> split <;> rfl

/-! ## Calls -/

/-- What the operations and queries keep of a transaction. -/
structure Upkeep (keys : WalletKeys) (P : CWalletTx → Prop) : Prop where
  markDirty : ∀ wtx : CWalletTx, P wtx.markDirty
  merge : ∀ wtx wtxIn : CWalletTx, P (wtx.markDirty.merge wtxIn)
  setSpent : ∀ {wtx after n fSpent}, P wtx → wtx.setSpent n fSpent = some after → P after
  updateSpent : ∀ {wtx} vfNewSpent, P wtx → P (wtx.updateSpent vfNewSpent)
  getDebit : ∀ {wtx} (w : WalletCoins), P wtx → P (w.getDebit keys wtx).2
  getCredit : ∀ {wtx} (w : WalletCoins) fUseCache, P wtx → P (w.getCredit keys wtx fUseCache).2
  getAvailableCredit : ∀ {wtx} (w : WalletCoins) fUseCache, P wtx → P (w.getAvailableCredit keys wtx fUseCache).2
  getChange : ∀ {wtx} (w : WalletCoins), P wtx → P (w.getChange keys wtx).2

/-- Every transaction of the wallet has a property. -/
def Each (P : CWalletTx → Prop) (w : WalletCoins) : Prop := ∀ hash wtx, w.mapWallet hash = some wtx → P wtx

namespace Each

variable {P : CWalletTx → Prop}

theorem set (each : w.Each P) (hash : UInt256) (holds : P wtx) : (w.set hash wtx).Each P := by
  intro other wtx' found
  rw [mapWallet_set] at found
  split at found
  · exact Option.some.inj found ▸ holds
  · exact each other wtx' found

theorem onEntry (each : w.Each P) (hash : UInt256) {change : CWalletTx → CWalletTx}
    (keeps : ∀ wtx, P wtx → P (change wtx)) : (w.onEntry hash change).Each P := by
  unfold WalletCoins.onEntry
  cases found : w.mapWallet hash with
  | none => exact each
  | some wtx => exact each.set hash (keeps wtx (each hash wtx found))

variable (upkeep : Upkeep keys P)
include upkeep

theorem spendInput (each : w.Each P) (txin : CTxIn) : (resultState (WalletCoins.spendInput keys w txin)).Each P := by
  unfold WalletCoins.spendInput
  cases found : w.mapWallet txin.prevout.hash with
  | none => exact each
  | some wtx =>
      dsimp only
      split
      · exact each
      · split
        · have cached := upkeep.getCredit w true (each _ wtx found)
          generalize w.getCredit keys wtx true = result at cached ⊢
          obtain ⟨_ | nCredit, wtx'⟩ := result
          · exact each.set _ cached
          · dsimp only
            cases marked : wtx'.markSpent txin.prevout.n.toNat with
            | none => exact each.set _ cached
            | some after => exact each.set _ (upkeep.setSpent cached marked)
        · exact each

theorem unspendOutput (each : w.Each P) (hash : UInt256) (entry : CTxOut × Nat) :
    (resultState (WalletCoins.unspendOutput keys hash w entry)).Each P := by
  unfold WalletCoins.unspendOutput
  split
  · cases found : w.mapWallet hash with
    | none => exact each
    | some wtx =>
        rw [Option.bind_some]
        cases marked : wtx.markUnspent entry.2 with
        | none => exact each
        | some after => exact each.set hash (upkeep.setSpent (each hash wtx found) marked)
  · exact each

theorem walletUpdateSpent (each : w.Each P) (tx : CTransaction) (fBlock : Bool) :
    (resultState (w.walletUpdateSpent env keys tx fBlock)).Each P := by
  have spends := @resultState_foldlM _ _ (WalletCoins.spendInput keys) (Each P)
    (fun _ txin before => before.spendInput upkeep txin) tx.vin w each
  unfold WalletCoins.walletUpdateSpent
  cases result : tx.vin.foldlM (WalletCoins.spendInput keys) w with
  | error w' =>
      rw [result] at spends
      exact spends
  | ok w' =>
      rw [result] at spends
      cases fBlock with
      | false => exact spends
      | true =>
          exact @resultState_foldlM _ _ (WalletCoins.unspendOutput keys (env.txHash tx)) (Each P)
            (fun _ entry before => before.unspendOutput upkeep (env.txHash tx) entry) tx.vout.zipIdx w' spends

theorem addToWallet (each : w.Each P) (wtxIn : CWalletTx) (poolKeys : List (BitVec 160)) :
    (resultState (w.addToWallet env keys poolKeys wtxIn)).Each P := by
  have added : P (w.added env wtxIn) := by
    unfold WalletCoins.added
    split
    · exact upkeep.markDirty _
    · exact upkeep.merge _ wtxIn
  unfold WalletCoins.addToWallet
  dsimp only
  refine Each.walletUpdateSpent upkeep ?_ _ _
  split
  · intro hash wtx found
    rw [replaceDefaultKey_mapWallet] at found
    exact each.set _ added hash wtx found
  · exact each.set _ added

theorem commitInput (each : w.Each P) (txin : CTxIn) : (resultState (WalletCoins.commitInput w txin)).Each P := by
  have dirty := upkeep.markDirty ((w.mapWallet txin.prevout.hash).getD .null)
  unfold WalletCoins.commitInput
  dsimp only
  cases marked : (((w.mapWallet txin.prevout.hash).getD .null).markDirty).markSpent txin.prevout.n.toNat with
  | none => exact each.set _ dirty
  | some after => exact each.set _ (upkeep.setSpent dirty marked)

theorem commitTransaction (each : w.Each P) (wtxNew : CWalletTx) (poolKeys : List (BitVec 160)) :
    (resultState (w.commitTransaction env keys poolKeys wtxNew)).Each P := by
  have added := @Each.addToWallet env keys w P upkeep each wtxNew poolKeys
  unfold WalletCoins.commitTransaction
  cases result : w.addToWallet env keys poolKeys wtxNew with
  | error w' =>
      rw [result] at added
      exact added
  | ok w' =>
      rw [result] at added
      exact @resultState_foldlM _ _ WalletCoins.commitInput (Each P)
        (fun _ txin before => before.commitInput upkeep txin) wtxNew.tx.vin w' added

theorem addToWalletIfInvolvingMe (each : w.Each P) (tx : CTransaction) (pblock : Option CBlock) (fUpdate : Bool)
    (poolKeys : List (BitVec 160)) :
    (resultState (w.addToWalletIfInvolvingMe env keys poolKeys tx pblock fUpdate)).Each P := by
  unfold WalletCoins.addToWalletIfInvolvingMe
  dsimp only
  split
  · exact each
  · split
    · exact each.addToWallet upkeep _ poolKeys
    · split
      · exact each
      · split
        · exact each.addToWallet upkeep _ poolKeys
        · exact each.walletUpdateSpent upkeep tx false

theorem step (each : w.Each P) (event : AmountEvent) : (event.step env keys w).Each P := by
  cases event with
  | coins event =>
      cases event with
      | addToWallet wtxIn poolKeys => exact each.addToWallet upkeep wtxIn poolKeys
      | addToWalletIfInvolvingMe tx pblock fUpdate poolKeys =>
          exact each.addToWalletIfInvolvingMe upkeep tx pblock fUpdate poolKeys
      | commitTransaction wtxNew poolKeys => exact each.commitTransaction upkeep wtxNew poolKeys
      | walletUpdateSpent tx fBlock => exact each.walletUpdateSpent upkeep tx fBlock
      | chain blocksToMaturity => exact each
  | eraseFromWallet hash =>
      intro other wtx found
      change Function.update w.mapWallet hash none other = some wtx at found
      rw [Function.update_apply] at found
      split at found
      · cases found
      · exact each other wtx found
  | setSpent hash nOut fSpent =>
      refine each.onEntry hash fun wtx holds => ?_
      cases done : wtx.setSpent nOut fSpent with
      | none => exact holds
      | some after => exact upkeep.setSpent holds done
  | updateSpent hash vfNewSpent => exact each.onEntry hash fun wtx => upkeep.updateSpent vfNewSpent
  | getDebit hash => exact each.onEntry hash fun wtx => upkeep.getDebit w
  | getCredit hash fUseCache => exact each.onEntry hash fun wtx => upkeep.getCredit w fUseCache
  | getAvailableCredit hash fUseCache => exact each.onEntry hash fun wtx => upkeep.getAvailableCredit w fUseCache
  | getChange hash => exact each.onEntry hash fun wtx => upkeep.getChange w

/-- Whatever the calls and their order. -/
theorem reached (run : AmountsReached env keys (fun _ _ => True) w) : w.Each P := by
  induction run with
  | start empty =>
      intro hash wtx found
      rw [empty] at found
      cases found
  | event event _ _ ih => exact ih.step upkeep event

end Each

/-! ## Every run -/

theorem Computed.upkeep : Upkeep keys (Computed keys) where
  markDirty _ := .markDirty
  merge _ wtxIn := .merge wtxIn
  setSpent computed done := computed.setSpent done
  updateSpent _ computed := computed.congr rfl rfl rfl rfl
  getDebit _ computed := computed.getDebit
  getCredit _ fUseCache computed := computed.getCredit fUseCache
  getAvailableCredit _ fUseCache computed := computed.getAvailableCredit fUseCache
  getChange _ computed := computed.getChange

/-- The cached available credit is that of the unspent outputs. -/
def Available (keys : WalletKeys) (wtx : CWalletTx) : Prop :=
  ∀ nCredit, wtx.nAvailableCreditCached = some nCredit → getAvailableTx keys wtx = some nCredit

theorem Available.upkeep : Upkeep keys (Available keys) where
  markDirty _ _ cached := by cases cached
  merge wtx wtxIn _ cached := (@Accurate.merge keys .empty wtx wtxIn).available cached
  setSpent {wtx after n fSpent} available done nCredit cached := by
    unfold CWalletTx.setSpent at done
    split at done
    · cases done
    · split at done <;> obtain rfl := Option.some.inj done
      · rw [← available nCredit cached]
        exact getAvailableTx_congr rfl fun m inside => CWalletTx.getD_resizeSpent wtx inside
      · cases cached
  updateSpent {wtx} vfNewSpent available nCredit cached := by
    unfold CWalletTx.updateSpent at cached
    dsimp only at cached
    split at cached
    · rename_i same
      rw [← available nCredit cached]
      refine getAvailableTx_congr rfl fun n _ => ?_
      rw [CWalletTx.isSpent, CWalletTx.updateSpent, same, CWalletTx.isSpent]
    · cases cached
  getDebit {wtx} w available := by
    unfold WalletCoins.getDebit
    split
    · exact available
    · split
      · exact available
      · split <;> exact available
  getCredit {wtx} w fUseCache available := by
    unfold WalletCoins.getCredit
    split
    · exact available
    · split
      · exact available
      · split <;> exact available
  getAvailableCredit {wtx} w fUseCache available := by
    unfold WalletCoins.getAvailableCredit
    split
    · exact available
    · split
      · exact available
      · split
        · rename_i summed
          exact fun nCredit cached => summed.trans cached
        · exact available
  getChange {wtx} w available := by
    unfold WalletCoins.getChange
    split
    · exact available
    · split <;> exact available

/-- What the answers of a transaction of the wallet are good for. -/
structure Answers (keys : WalletKeys) (w : WalletCoins) (wtx : CWalletTx) : Prop where
  credit : ∀ fUseCache,
    (w.getCredit keys wtx fUseCache).1 = if w.immature wtx then some 0 else getCreditTx keys wtx.tx
  available : ∀ fUseCache,
    (w.getAvailableCredit keys wtx fUseCache).1 = if w.immature wtx then some 0 else getAvailableTx keys wtx
  debit : ∀ nDebit, (w.getDebit keys wtx).1 = some nDebit → 0 ≤ nDebit.toInt
  change : ∀ nChange, (w.getChange keys wtx).1 = some nChange → 0 ≤ nChange.toInt

theorem Computed.answers (computed : Computed keys wtx) (available : Available keys wtx) : Answers keys w wtx where
  credit fUseCache := by
    unfold WalletCoins.getCredit
    split
    · rfl
    · split
      · rename_i cached
        exact (computed.credit cached).symm
      · cases getCreditTx keys wtx.tx <;> rfl
  available fUseCache := by
    unfold WalletCoins.getAvailableCredit
    split
    · rfl
    · split
      · rename_i cached
        exact (available _ cached).symm
      · cases getAvailableTx keys wtx <;> rfl
  debit _ debit := computed.getDebit_nonneg debit
  change nChange change := by
    unfold WalletCoins.getChange at change
    split at change
    · rename_i cached
      exact Option.some.inj change ▸ computed.change cached
    · cases summed : w.getChangeTx keys wtx.tx with
      | none =>
          rw [summed] at change
          cases change
      | some sum =>
          rw [summed] at change
          exact Option.some.inj change ▸ (sumOutputs_exact summed).2

/-- Whatever the calls and their order, both credits are answered as a recomputation answers, with or without the
cache, and no debit and no change is below zero. -/
theorem credits_always_current (reached : AmountsReached env keys (fun _ _ => True) w) {hash : UInt256}
    (found : w.mapWallet hash = some wtx) : Answers keys w wtx := by
  have computed : w.AllComputed keys := Each.reached Computed.upkeep reached
  have available : w.Each (Available keys) := Each.reached Available.upkeep reached
  exact (computed hash wtx found).answers (available hash wtx found)

/-- Also where the debit that was cached before its coin came in is an old one. -/
theorem credits_always_current_stale :
    Answers .all (AmountEvent.step (Env.labelled true) .all (AmountEvent.step (Env.labelled true) .all
      (WalletCoins.empty.add spendTx) (.getDebit 2)) (.coins (.addToWallet coinTx [])))
      { spendTx with nDebitCached := some 0 } :=
  @credits_always_current (Env.labelled true) .all _ _ (.event _ (.event _ (.event (.coins (.addToWallet spendTx []))
    (.start rfl) trivial) trivial) trivial) 2 rfl

end WalletCoins

end InfiniteRicks
