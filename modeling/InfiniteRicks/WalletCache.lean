import InfiniteRicks.SpentFlags

/-!
# Cached amounts

`Accurate` says that the cached amounts of a transaction are the recomputed ones. Flags
and queries keep it. A debit depends on the outputs of other transactions, and the
change on the address book; neither is invalidated when these change.
-/

namespace InfiniteRicks

open WalletCoins

namespace WalletCoins

/-- The outputs of the transactions of the wallet. -/
def output (w : WalletCoins) (hash : UInt256) (n : Nat) : Option CTxOut :=
  (w.mapWallet hash).bind fun wtx => wtx.tx.vout[n]?

/-- The cached amounts are those of a recomputation. -/
structure Accurate (keys : WalletKeys) (w : WalletCoins) (wtx : CWalletTx) : Prop where
  debit : ∀ {nDebit}, wtx.nDebitCached = some nDebit → w.getDebitTx keys wtx.tx = some nDebit
  credit : ∀ {nCredit}, wtx.nCreditCached = some nCredit → getCreditTx keys wtx.tx = some nCredit
  available : ∀ {nCredit}, wtx.nAvailableCreditCached = some nCredit → getAvailableTx keys wtx = some nCredit
  change : ∀ {nChange}, wtx.nChangeCached = some nChange → w.getChangeTx keys wtx.tx = some nChange

/-- Every transaction of the wallet has accurate amounts. -/
def AllAccurate (keys : WalletKeys) (w : WalletCoins) : Prop :=
  ∀ hash wtx, w.mapWallet hash = some wtx → w.Accurate keys wtx

/-- The amounts of a transaction are computed from the same outputs and the same address book. -/
structure SameView (before after : WalletCoins) : Prop where
  output : after.output = before.output
  book : after.mapAddressBook = before.mapAddressBook

section Views

variable {keys : WalletKeys} {w : WalletCoins}

theorem SameView.refl (w : WalletCoins) : SameView w w := ⟨rfl, rfl⟩

theorem SameView.trans {first second third : WalletCoins} (left : SameView first second) (right : SameView second third) :
    SameView first third :=
  ⟨right.output.trans left.output, right.book.trans left.book⟩

theorem debitOf_eq (w : WalletCoins) (txin : CTxIn) :
    w.debitOf keys txin = match w.output txin.prevout.hash txin.prevout.n.toNat with
      | some txout => if keys.isMine txout.scriptPubKey then txout.nValue else 0
      | none => 0 := by
  unfold debitOf WalletCoins.output
  cases w.mapWallet txin.prevout.hash with
  | none => rfl
  | some prev => rfl

theorem SameView.getDebitTx {before after : WalletCoins} (same : SameView before after) (tx : CTransaction) :
    after.getDebitTx keys tx = before.getDebitTx keys tx := by
  unfold WalletCoins.getDebitTx
  congr 1
  refine List.map_congr_left fun txin _ => ?_
  rw [debitOf_eq, debitOf_eq, same.output]

theorem SameView.getChangeTx {before after : WalletCoins} (same : SameView before after) (tx : CTransaction) :
    after.getChangeTx keys tx = before.getChangeTx keys tx := by
  have change : after.isChange keys = before.isChange keys := by
    unfold isChange
    rw [same.book]
  rw [WalletCoins.getChangeTx, WalletCoins.getChangeTx, change]

theorem Accurate.congr {before after : WalletCoins} {wtx : CWalletTx} (accurate : before.Accurate keys wtx)
    (same : SameView before after) : after.Accurate keys wtx where
  debit cached := (same.getDebitTx wtx.tx).trans (accurate.debit cached)
  credit := accurate.credit
  available := accurate.available
  change cached := (same.getChangeTx wtx.tx).trans (accurate.change cached)

/-- A transaction is replaced by one with the same outputs. -/
theorem SameView.set {hash : UInt256} {wtx : CWalletTx} (same : ∀ n, wtx.tx.vout[n]? = w.output hash n) :
    SameView w (w.set hash wtx) := by
  refine ⟨funext fun other => funext fun n => ?_, rfl⟩
  rw [WalletCoins.output, mapWallet_set]
  split
  · rename_i here
    rw [here]
    exact same n
  · rfl

theorem AllAccurate.set (all : w.AllAccurate keys) {hash : UInt256} {wtx : CWalletTx}
    (same : ∀ n, wtx.tx.vout[n]? = w.output hash n) (accurate : w.Accurate keys wtx) :
    (w.set hash wtx).AllAccurate keys := by
  intro other wtx' found
  rw [mapWallet_set] at found
  split at found
  · rw [← Option.some.inj found]
    exact accurate.congr (.set same)
  · exact (all other wtx' found).congr (.set same)

theorem output_of_found {hash : UInt256} {wtx after : CWalletTx} (found : w.mapWallet hash = some wtx)
    (same : after.tx = wtx.tx) (n : Nat) : after.tx.vout[n]? = w.output hash n := by
  rw [WalletCoins.output, found, Option.bind_some, same]

end Views

section Entries

variable {keys : WalletKeys} {w : WalletCoins} {wtx : CWalletTx}

/-- Without cached amounts there is nothing to be wrong. -/
theorem Accurate.of_none (debit : wtx.nDebitCached = none) (credit : wtx.nCreditCached = none)
    (available : wtx.nAvailableCreditCached = none) (change : wtx.nChangeCached = none) : w.Accurate keys wtx := by
  refine ⟨fun cached => ?_, fun cached => ?_, fun cached => ?_, fun cached => ?_⟩
  · rw [debit] at cached
    cases cached
  · rw [credit] at cached
    cases cached
  · rw [available] at cached
    cases cached
  · rw [change] at cached
    cases cached

theorem Accurate.markDirty : w.Accurate keys wtx.markDirty := .of_none rfl rfl rfl rfl

theorem Accurate.merge (wtxIn : CWalletTx) : w.Accurate keys (wtx.markDirty.merge wtxIn) := by
  unfold CWalletTx.merge CWalletTx.updateSpent
  refine .of_none ?_ ?_ ?_ ?_ <;> dsimp only <;> split <;> split <;> split <;> first | rfl | (split <;> rfl)

/-- The unspent outputs depend on the flags of the outputs that there are. -/
theorem getAvailableTx_congr {after : CWalletTx} (same : after.tx = wtx.tx)
    (flags : ∀ n < wtx.tx.vout.length, after.isSpent n = wtx.isSpent n) :
    getAvailableTx keys after = getAvailableTx keys wtx := by
  unfold getAvailableTx unspentOutputs
  rw [same]
  congr 2
  refine List.filter_congr fun entry member => ?_
  obtain ⟨txout, n⟩ := entry
  rw [flags n (List.getElem?_eq_some_iff.mp (List.mem_zipIdx_iff_getElem?.mp member)).1]

theorem Accurate.setSpent (accurate : w.Accurate keys wtx) {n : Nat} {fSpent : Bool} {after : CWalletTx}
    (done : wtx.setSpent n fSpent = some after) : after.tx = wtx.tx ∧ w.Accurate keys after := by
  unfold CWalletTx.setSpent at done
  split at done
  · cases done
  · split at done
    · rw [← Option.some.inj done]
      refine ⟨rfl, accurate.debit, accurate.credit, fun cached => ?_, accurate.change⟩
      rw [← accurate.available cached]
      exact getAvailableTx_congr rfl fun m inside => CWalletTx.getD_resizeSpent wtx inside
    · rw [← Option.some.inj done]
      exact ⟨rfl, accurate.debit, accurate.credit, nofun, accurate.change⟩

theorem Accurate.updateSpent (accurate : w.Accurate keys wtx) (vfNewSpent : List Bool) :
    w.Accurate keys (wtx.updateSpent vfNewSpent) := by
  refine ⟨accurate.debit, accurate.credit, fun cached => ?_, accurate.change⟩
  unfold CWalletTx.updateSpent at cached
  dsimp only at cached
  split at cached
  · rename_i same
    rw [← accurate.available cached]
    refine getAvailableTx_congr rfl fun n _ => ?_
    rw [CWalletTx.isSpent, CWalletTx.updateSpent, same, CWalletTx.isSpent]
  · cases cached

/-- A query answers with the recomputed amount and keeps the caches accurate. -/
theorem Accurate.getDebit (accurate : w.Accurate keys wtx) :
    (w.getDebit keys wtx).1 = w.getDebitTx keys wtx.tx ∧ (w.getDebit keys wtx).2.tx = wtx.tx ∧
      w.Accurate keys (w.getDebit keys wtx).2 := by
  unfold WalletCoins.getDebit
  split
  · rename_i empty
    refine ⟨?_, rfl, accurate⟩
    rw [getDebitTx, List.isEmpty_iff.mp empty]
    rfl
  · split
    · rename_i cached
      exact ⟨(accurate.debit cached).symm, rfl, accurate⟩
    · cases value : w.getDebitTx keys wtx.tx with
      | none => exact ⟨rfl, rfl, accurate⟩
      | some nDebit => exact ⟨rfl, rfl, fun cached => by rw [value, ← cached], accurate.credit, accurate.available, accurate.change⟩

theorem Accurate.getCredit (accurate : w.Accurate keys wtx) (fUseCache : Bool) :
    (w.getCredit keys wtx fUseCache).1 = (if w.immature wtx then some 0 else getCreditTx keys wtx.tx) ∧
      (w.getCredit keys wtx fUseCache).2.tx = wtx.tx ∧ w.Accurate keys (w.getCredit keys wtx fUseCache).2 := by
  unfold WalletCoins.getCredit
  split
  · exact ⟨rfl, rfl, accurate⟩
  · split
    · rename_i cached
      exact ⟨(accurate.credit cached).symm, rfl, accurate⟩
    · cases value : getCreditTx keys wtx.tx with
      | none => exact ⟨rfl, rfl, accurate⟩
      | some nCredit => exact ⟨rfl, rfl, accurate.debit, fun cached => by rw [value, ← cached], accurate.available, accurate.change⟩

theorem Accurate.getAvailableCredit (accurate : w.Accurate keys wtx) (fUseCache : Bool) :
    (w.getAvailableCredit keys wtx fUseCache).1 = (if w.immature wtx then some 0 else getAvailableTx keys wtx) ∧
      (w.getAvailableCredit keys wtx fUseCache).2.tx = wtx.tx ∧
      w.Accurate keys (w.getAvailableCredit keys wtx fUseCache).2 := by
  unfold WalletCoins.getAvailableCredit
  split
  · exact ⟨rfl, rfl, accurate⟩
  · split
    · rename_i cached
      exact ⟨(accurate.available cached).symm, rfl, accurate⟩
    · cases value : getAvailableTx keys wtx with
      | none => exact ⟨rfl, rfl, accurate⟩
      | some nCredit =>
          exact ⟨rfl, rfl, accurate.debit, accurate.credit,
            fun cached => (getAvailableTx_congr rfl fun _ _ => rfl).trans (value.trans cached), accurate.change⟩

theorem Accurate.getChange (accurate : w.Accurate keys wtx) :
    (w.getChange keys wtx).1 = w.getChangeTx keys wtx.tx ∧ (w.getChange keys wtx).2.tx = wtx.tx ∧
      w.Accurate keys (w.getChange keys wtx).2 := by
  unfold WalletCoins.getChange
  split
  · rename_i cached
    exact ⟨(accurate.change cached).symm, rfl, accurate⟩
  · cases value : w.getChangeTx keys wtx.tx with
    | none => exact ⟨rfl, rfl, accurate⟩
    | some nChange => exact ⟨rfl, rfl, accurate.debit, accurate.credit, accurate.available, fun cached => by rw [value, ← cached]⟩

end Entries

section Calls

variable {env : Env} {keys : WalletKeys} {w : WalletCoins}

/-- What a call keeps that changes flags and caches only. -/
def Keeps (keys : WalletKeys) (before after : WalletCoins) : Prop := after.AllAccurate keys ∧ SameView before after

theorem spendInput_keeps {before w : WalletCoins} (txin : CTxIn) (keeps : Keeps keys before w) :
    Keeps keys before (resultState (spendInput keys w txin)) := by
  unfold spendInput
  cases found : w.mapWallet txin.prevout.hash with
  | none => exact keeps
  | some wtx =>
      dsimp only
      split
      · exact keeps
      · split
        · obtain ⟨-, same, cached⟩ := (keeps.1 _ wtx found).getCredit true
          have outputs := output_of_found found same
          generalize w.getCredit keys wtx true = result at same cached outputs ⊢
          obtain ⟨_ | nCredit, wtx'⟩ := result
          · exact ⟨keeps.1.set outputs cached, keeps.2.trans (.set outputs)⟩
          · dsimp only
            cases marked : wtx'.markSpent txin.prevout.n.toNat with
            | none => exact ⟨keeps.1.set outputs cached, keeps.2.trans (.set outputs)⟩
            | some after =>
                obtain ⟨sameTx, accurate⟩ := cached.setSpent marked
                have outputs' : ∀ n, after.tx.vout[n]? = w.output txin.prevout.hash n := by
                  rw [sameTx]
                  exact outputs
                exact ⟨keeps.1.set outputs' accurate, keeps.2.trans (.set outputs')⟩
        · exact keeps

theorem unspendOutput_keeps {before w : WalletCoins} (hash : UInt256) (entry : CTxOut × Nat)
    (keeps : Keeps keys before w) : Keeps keys before (resultState (unspendOutput keys hash w entry)) := by
  unfold unspendOutput
  split
  · cases found : w.mapWallet hash with
    | none => exact keeps
    | some wtx =>
        rw [Option.bind_some]
        cases marked : wtx.markUnspent entry.2 with
        | none => exact keeps
        | some after =>
            obtain ⟨sameTx, accurate⟩ := (keeps.1 _ wtx found).setSpent marked
            have outputs := output_of_found found sameTx
            exact ⟨keeps.1.set outputs accurate, keeps.2.trans (.set outputs)⟩
  · exact keeps

theorem walletUpdateSpent_keeps (all : w.AllAccurate keys) (tx : CTransaction) (fBlock : Bool) :
    Keeps keys w (resultState (w.walletUpdateSpent env keys tx fBlock)) := by
  have spends := @resultState_foldlM _ _ (spendInput keys) (Keeps keys w) (fun _ txin => spendInput_keeps txin) tx.vin w
    ⟨all, .refl w⟩
  unfold walletUpdateSpent
  cases result : tx.vin.foldlM (spendInput keys) w with
  | error w' =>
      rw [result] at spends
      exact spends
  | ok w' =>
      rw [result] at spends
      cases fBlock with
      | false => exact spends
      | true =>
          exact @resultState_foldlM _ _ (unspendOutput keys (env.txHash tx)) (Keeps keys w)
            (fun _ entry => unspendOutput_keeps (env.txHash tx) entry) tx.vout.zipIdx w' spends

theorem commitInput_keeps {before w : WalletCoins} (txin : CTxIn) (keeps : Keeps keys before w) :
    Keeps keys before (resultState (commitInput w txin)) := by
  have outputs : ∀ {after : CWalletTx}, after.tx = ((w.mapWallet txin.prevout.hash).getD .null).tx →
      ∀ n, after.tx.vout[n]? = w.output txin.prevout.hash n := by
    intro after same n
    rw [same, WalletCoins.output]
    cases w.mapWallet txin.prevout.hash <;> rfl
  unfold commitInput
  dsimp only
  cases marked : (((w.mapWallet txin.prevout.hash).getD .null).markDirty).markSpent txin.prevout.n.toNat with
  | none =>
      have same := @outputs ((w.mapWallet txin.prevout.hash).getD .null).markDirty rfl
      exact ⟨keeps.1.set same .markDirty, keeps.2.trans (.set same)⟩
  | some after =>
      obtain ⟨sameTx, accurate⟩ := (@Accurate.markDirty keys w _).setSpent marked
      have same := outputs sameTx
      exact ⟨keeps.1.set same accurate, keeps.2.trans (.set same)⟩

/-- An input of the transaction spends an own output with a value. -/
def SpendsValue (keys : WalletKeys) (tx : CTransaction) (hash : UInt256) (spent : CTransaction) : Prop :=
  ∃ txin ∈ tx.vin, txin.prevout.hash = hash ∧ ∃ txout, spent.vout[txin.prevout.n.toNat]? = some txout ∧
    keys.isMine txout.scriptPubKey = true ∧ txout.nValue ≠ 0

/-- No other transaction of the wallet has a cached debit that the transaction under the hash adds to. -/
def NoDebit (keys : WalletKeys) (w : WalletCoins) (hash : UInt256) (tx : CTransaction) : Prop :=
  ∀ other wtx, other ≠ hash → w.mapWallet other = some wtx → wtx.nDebitCached.isSome = true →
    ¬SpendsValue keys wtx.tx hash tx

/-- The ids of the keys that become the default key, where the transaction pays to the one before. -/
def newDefaultKeys (w : WalletCoins) (tx : CTransaction) (poolKeys : List (BitVec 160)) : List (BitVec 160) :=
  match w.vchDefaultKey with
  | some id => poolKeys.take (tx.vout.countP fun txout => txout.scriptPubKey = CScript.payToKeyID id)
  | none => []

/-- No other transaction of the wallet has a cached change with an output to one of the keys. -/
def NoChange (keys : WalletKeys) (w : WalletCoins) (hash : UInt256) (ids : List (BitVec 160)) : Prop :=
  ∀ other wtx, other ≠ hash → w.mapWallet other = some wtx → wtx.nChangeCached.isSome = true →
    ∀ txout ∈ wtx.tx.vout, txout.nValue ≠ 0 → ∀ id ∈ ids,
      keys.extractDestination txout.scriptPubKey = some (.keyID id) → w.isChange keys txout = false

/-- Outputs without a value count or not. -/
theorem sumOutputs_congr {counts counts' : CTxOut → Bool} {vout : List CTxOut}
    (same : ∀ txout ∈ vout, txout.nValue ≠ 0 → counts txout = counts' txout) :
    sumOutputs counts vout = sumOutputs counts' vout := by
  unfold sumOutputs
  congr 2
  refine List.map_congr_left fun txout member => ?_
  by_cases zero : txout.nValue = 0
  · rw [zero, ite_self, ite_self]
  · rw [same txout member zero]

theorem replaceDefaultKey_book (scriptDefaultKey : CScript) (vout : List CTxOut) (poolKeys : List (BitVec 160))
    (w : WalletCoins) {address : CTxDestination}
    (other : ∀ id ∈ poolKeys.take (vout.countP fun txout => txout.scriptPubKey = scriptDefaultKey), address ≠ .keyID id) :
    (replaceDefaultKey scriptDefaultKey vout poolKeys w).mapAddressBook address = w.mapAddressBook address := by
  induction vout generalizing poolKeys w with
  | nil => rfl
  | cons txout rest ih =>
      cases poolKeys with
      | nil => rfl
      | cons id poolKeys =>
          unfold replaceDefaultKey
          split
          · rename_i pays
            simp only [List.countP_cons, pays, decide_true, if_true, List.take_succ_cons] at other
            rw [ih poolKeys _ fun id' member => other id' (List.mem_cons_of_mem _ member)]
            exact Function.update_of_ne (other id List.mem_cons_self) _ _
          · rename_i pays
            simp only [List.countP_cons, pays, decide_false, Bool.false_eq_true, if_false, Nat.add_zero] at other
            exact ih (id :: poolKeys) w other

theorem replaceDefaultKey_grows (scriptDefaultKey : CScript) (vout : List CTxOut) (poolKeys : List (BitVec 160))
    (w : WalletCoins) {address : CTxDestination} (listed : w.mapAddressBook address = true) :
    (replaceDefaultKey scriptDefaultKey vout poolKeys w).mapAddressBook address = true := by
  induction vout generalizing poolKeys w with
  | nil => exact listed
  | cons txout rest ih =>
      cases poolKeys with
      | nil => exact listed
      | cons id poolKeys =>
          unfold replaceDefaultKey
          split
          · refine ih poolKeys _ ?_
            dsimp only
            rw [Function.update_apply]
            split
            · rfl
            · exact listed
          · exact ih (id :: poolKeys) w listed

/-- `AddToWallet` keeps the amounts accurate, where no cached debit or change depends on what it adds. -/
theorem AllAccurate.addToWallet (all : w.AllAccurate keys) {wtxIn : CWalletTx} {poolKeys : List (BitVec 160)}
    (noDebit : w.mapWallet (env.txHash wtxIn.tx) = none → NoDebit keys w (env.txHash wtxIn.tx) wtxIn.tx)
    (noChange : NoChange keys w (env.txHash wtxIn.tx) (newDefaultKeys w (w.known env wtxIn) poolKeys)) :
    (resultState (w.addToWallet env keys poolKeys wtxIn)).AllAccurate keys := by
  obtain ⟨sameTx, existing, inserted⟩ := added_spec env w wtxIn
  have entry : ∀ w' : WalletCoins, w'.Accurate keys (w.added env wtxIn) := by
    intro w'
    unfold added
    split
    · exact .markDirty
    · exact .merge wtxIn
  -- The wallet with the entry, whatever its default key and address book are now.
  have middle : ∀ middle : WalletCoins, middle.mapWallet = (w.set (env.txHash wtxIn.tx) (w.added env wtxIn)).mapWallet →
      (∀ address, (∀ id ∈ newDefaultKeys w (w.known env wtxIn) poolKeys, address ≠ .keyID id) →
        middle.mapAddressBook address = w.mapAddressBook address) →
      (∀ address, w.mapAddressBook address = true → middle.mapAddressBook address = true) →
      middle.AllAccurate keys := by
    intro middle same book grows other wtx found
    rw [same, mapWallet_set] at found
    split at found
    · rw [← Option.some.inj found]
      exact entry middle
    · rename_i apart
      have accurate := all other wtx found
      refine ⟨fun cached => ?_, accurate.credit, accurate.available, fun cached => ?_⟩
      · rw [← accurate.debit cached]
        unfold getDebitTx
        congr 1
        refine List.map_congr_left fun txin member => ?_
        rw [debitOf_eq, debitOf_eq, WalletCoins.output, WalletCoins.output, same, mapWallet_set]
        by_cases here : txin.prevout.hash = env.txHash wtxIn.tx
        · rw [if_pos here, here]
          cases old : w.mapWallet (env.txHash wtxIn.tx) with
          | some wtx' =>
              rw [Option.bind_some, Option.bind_some, (existing old).1]
          | none =>
              rw [Option.bind_some, Option.bind_none, inserted old]
              change (match wtxIn.tx.vout[txin.prevout.n.toNat]? with
                | some txout => if keys.isMine txout.scriptPubKey then txout.nValue else 0
                | none => 0) = 0
              cases output : wtxIn.tx.vout[txin.prevout.n.toNat]? with
              | none => rfl
              | some txout =>
                  dsimp only
                  split
                  · rename_i own
                    by_contra value
                    exact noDebit old other wtx apart found (Option.isSome_of_eq_some cached)
                      ⟨txin, member, here, txout, output, own, value⟩
                  · rfl
        · rw [if_neg here]
      · rw [← accurate.change cached]
        refine sumOutputs_congr fun txout member value => ?_
        unfold isChange
        cases destination : keys.extractDestination txout.scriptPubKey with
        | none => rfl
        | some address =>
            dsimp only
            by_cases new : ∀ id ∈ newDefaultKeys w (w.known env wtxIn) poolKeys, address ≠ .keyID id
            · rw [book address new]
            · simp only [not_forall, not_not] at new
              obtain ⟨id, drawn, rfl⟩ := new
              have before := noChange other wtx apart found (Option.isSome_of_eq_some cached) txout member value id drawn
                destination
              unfold isChange at before
              simp only [destination] at before
              rw [before]
              rcases Bool.and_eq_false_iff.mp before with foreign | listed
              · rw [foreign, Bool.false_and]
              · rw [grows _ (by simpa using listed), Bool.not_true, Bool.and_false]
  have accurate : ∀ {w' : WalletCoins}, w'.AllAccurate keys →
      (resultState (w'.walletUpdateSpent env keys (w.added env wtxIn).tx (wtxIn.hashBlock ≠ 0))).AllAccurate keys :=
    fun all' => (walletUpdateSpent_keeps all' _ _).1
  unfold WalletCoins.addToWallet
  dsimp only
  split
  · rename_i id default
    refine accurate (middle _ (replaceDefaultKey_mapWallet _ _ _ _) (fun address other => ?_) fun address listed => ?_)
    · refine replaceDefaultKey_book _ _ _ _ fun id' member => other id' ?_
      rw [newDefaultKeys, show w.vchDefaultKey = some id from default, ← sameTx]
      exact member
    · exact replaceDefaultKey_grows _ _ _ _ listed
  · exact accurate (middle _ rfl (fun _ _ => rfl) fun _ listed => listed)

theorem AllAccurate.eraseFromWallet (all : w.AllAccurate keys) {hash : UInt256}
    (noDebit : ∀ wtx, w.mapWallet hash = some wtx → NoDebit keys w hash wtx.tx) :
    (w.eraseFromWallet hash).AllAccurate keys := by
  have lookup : ∀ other, (w.eraseFromWallet hash).mapWallet other = if other = hash then none else w.mapWallet other :=
    fun other => Function.update_apply w.mapWallet hash none other
  intro other wtx found
  rw [lookup] at found
  split at found
  · cases found
  · rename_i apart
    have accurate := all other wtx found
    refine ⟨fun cached => ?_, accurate.credit, accurate.available, accurate.change⟩
    rw [← accurate.debit cached]
    unfold getDebitTx
    congr 1
    refine List.map_congr_left fun txin member => ?_
    rw [debitOf_eq, debitOf_eq, WalletCoins.output, WalletCoins.output, lookup]
    by_cases here : txin.prevout.hash = hash
    · rw [if_pos here, here]
      cases old : w.mapWallet hash with
      | none => rfl
      | some wtx' =>
          rw [Option.bind_none, Option.bind_some]
          cases output : wtx'.tx.vout[txin.prevout.n.toNat]? with
          | none => rfl
          | some txout =>
              dsimp only
              split
              · rename_i own
                by_contra value
                exact noDebit wtx' old other wtx apart found (Option.isSome_of_eq_some cached)
                  ⟨txin, member, here, txout, output, own, fun zero => value zero.symm⟩
              · rfl
    · rw [if_neg here]

end Calls

/-- A change of one transaction of the wallet. -/
def onEntry (w : WalletCoins) (hash : UInt256) (change : CWalletTx → CWalletTx) : WalletCoins :=
  match w.mapWallet hash with
  | some wtx => w.set hash (change wtx)
  | none => w

theorem AllAccurate.onEntry {keys : WalletKeys} {w : WalletCoins} (all : w.AllAccurate keys) (hash : UInt256)
    {change : CWalletTx → CWalletTx}
    (keeps : ∀ wtx, w.Accurate keys wtx → (change wtx).tx = wtx.tx ∧ w.Accurate keys (change wtx)) :
    (w.onEntry hash change).AllAccurate keys := by
  unfold WalletCoins.onEntry
  cases found : w.mapWallet hash with
  | none => exact all
  | some wtx =>
      obtain ⟨same, accurate⟩ := keeps wtx (all hash wtx found)
      exact all.set (output_of_found found same) accurate

end WalletCoins

/-- A wallet operation or an amount query. `setSpent` is `MarkSpent` or `MarkUnspent`. -/
inductive AmountEvent where
  | coins (event : CoinEvent)
  | eraseFromWallet (hash : UInt256)
  | setSpent (hash : UInt256) (nOut : Nat) (fSpent : Bool)
  | updateSpent (hash : UInt256) (vfNewSpent : List Bool)
  | getDebit (hash : UInt256)
  | getCredit (hash : UInt256) (fUseCache : Bool)
  | getAvailableCredit (hash : UInt256) (fUseCache : Bool)
  | getChange (hash : UInt256)

/-- The ids that `GetKeyFromPool` hands out in a call. -/
def CoinEvent.poolKeys : CoinEvent → List (BitVec 160)
  | .addToWallet _ poolKeys | .addToWalletIfInvolvingMe _ _ _ poolKeys | .commitTransaction _ poolKeys => poolKeys
  | _ => []

namespace AmountEvent

variable (env : Env) (keys : WalletKeys)

def step (w : WalletCoins) : AmountEvent → WalletCoins
  | coins event => event.step env keys w
  | eraseFromWallet hash => w.eraseFromWallet hash
  | setSpent hash nOut fSpent => w.onEntry hash fun wtx => (wtx.setSpent nOut fSpent).getD wtx
  | updateSpent hash vfNewSpent => w.onEntry hash fun wtx => wtx.updateSpent vfNewSpent
  | getDebit hash => w.onEntry hash fun wtx => (w.getDebit keys wtx).2
  | getCredit hash fUseCache => w.onEntry hash fun wtx => (w.getCredit keys wtx fUseCache).2
  | getAvailableCredit hash fUseCache => w.onEntry hash fun wtx => (w.getAvailableCredit keys wtx fUseCache).2
  | getChange hash => w.onEntry hash fun wtx => (w.getChange keys wtx).2

/-- No cached debit spends from a transaction that is inserted or erased, and no cached change pays to a key that
becomes the default key. -/
def Apart (w : WalletCoins) : AmountEvent → Prop
  | coins event => ∀ wtxIn, event.incoming env keys w = some wtxIn →
      (w.mapWallet (env.txHash wtxIn.tx) = none → NoDebit keys w (env.txHash wtxIn.tx) wtxIn.tx) ∧
        NoChange keys w (env.txHash wtxIn.tx) (newDefaultKeys w (w.known env wtxIn) event.poolKeys)
  | eraseFromWallet hash => ∀ wtx, w.mapWallet hash = some wtx → NoDebit keys w hash wtx.tx
  | _ => True

variable {env keys} {w : WalletCoins}

theorem step_accurate (all : w.AllAccurate keys) (event : AmountEvent) (apart : event.Apart env keys w) :
    (event.step env keys w).AllAccurate keys := by
  cases event with
  | eraseFromWallet hash => exact all.eraseFromWallet apart
  | setSpent hash nOut fSpent =>
      refine all.onEntry hash fun wtx accurate => ?_
      cases done : wtx.setSpent nOut fSpent with
      | none => exact ⟨rfl, accurate⟩
      | some after => exact accurate.setSpent done
  | updateSpent hash vfNewSpent => exact all.onEntry hash fun wtx accurate => ⟨rfl, accurate.updateSpent vfNewSpent⟩
  | getDebit hash => exact all.onEntry hash fun wtx accurate => accurate.getDebit.2
  | getCredit hash fUseCache => exact all.onEntry hash fun wtx accurate => (accurate.getCredit fUseCache).2
  | getAvailableCredit hash fUseCache => exact all.onEntry hash fun wtx accurate => (accurate.getAvailableCredit fUseCache).2
  | getChange hash => exact all.onEntry hash fun wtx accurate => accurate.getChange.2
  | coins event =>
      simp only [Apart] at apart
      cases event with
      | addToWallet wtxIn poolKeys =>
          obtain ⟨noDebit, noChange⟩ := apart wtxIn rfl
          exact all.addToWallet noDebit noChange
      | chain blocksToMaturity => exact fun hash wtx found => (all hash wtx found).congr ⟨rfl, rfl⟩
      | walletUpdateSpent tx fBlock => exact (walletUpdateSpent_keeps all tx fBlock).1
      | commitTransaction wtxNew poolKeys =>
          obtain ⟨noDebit, noChange⟩ := apart wtxNew rfl
          have added := all.addToWallet noDebit noChange
          simp only [step, CoinEvent.step, WalletCoins.commitTransaction]
          cases result : w.addToWallet env keys poolKeys wtxNew with
          | error w' =>
              simp only [CoinEvent.poolKeys, result] at added
              exact added
          | ok w' =>
              simp only [CoinEvent.poolKeys, result] at added
              exact (@resultState_foldlM _ _ commitInput (Keeps keys w') (fun _ txin => commitInput_keeps txin)
                wtxNew.tx.vin w' ⟨added, .refl w'⟩).1
      | addToWalletIfInvolvingMe tx pblock fUpdate poolKeys =>
          simp only [CoinEvent.incoming, CoinEvent.poolKeys] at apart
          simp only [step, CoinEvent.step, WalletCoins.addToWalletIfInvolvingMe]
          generalize CWalletTx.ofBlock env tx pblock = wtx at apart ⊢
          cases existed : (w.mapWallet (env.txHash tx)).isSome with
          | true =>
              rw [existed] at apart
              cases fUpdate with
              | false => exact all
              | true => exact all.addToWallet (apart wtx rfl).1 (apart wtx rfl).2
          | false =>
              rw [existed] at apart
              simp only [Bool.false_and, Bool.false_or, Bool.false_eq_true, if_false] at apart ⊢
              cases mine : isMineTx keys tx with
              | true =>
                  rw [mine] at apart
                  exact all.addToWallet (apart wtx rfl).1 (apart wtx rfl).2
              | false =>
                  rw [mine] at apart
                  rw [if_neg Bool.false_ne_true]
                  cases debit : w.getDebitTx keys tx with
                  | none => exact all
                  | some nDebit =>
                      rw [debit] at apart
                      dsimp only
                      by_cases fromMe : 0 < nDebit
                      · rw [if_pos fromMe]
                        have given := apart wtx (if_pos (decide_eq_true fromMe))
                        exact all.addToWallet given.1 given.2
                      · rw [if_neg fromMe]
                        exact (walletUpdateSpent_keeps all tx false).1

end AmountEvent

section Runs

variable (env : Env) (keys : WalletKeys)

/-- The wallets that operations and queries reach from an empty `mapWallet`. -/
inductive AmountsReached (Allowed : WalletCoins → AmountEvent → Prop) : WalletCoins → Prop
  | start {w : WalletCoins} (empty : w.mapWallet = fun _ => none) : AmountsReached Allowed w
  | event {w : WalletCoins} (event : AmountEvent) (reached : AmountsReached Allowed w) (allowed : Allowed w event) :
      AmountsReached Allowed (event.step env keys w)

/-- The queries answer what a recomputation answers, with or without the cache. -/
structure WalletCoins.Current (w : WalletCoins) (wtx : CWalletTx) : Prop where
  debit : (w.getDebit keys wtx).1 = w.getDebitTx keys wtx.tx
  credit : ∀ fUseCache,
    (w.getCredit keys wtx fUseCache).1 = if w.immature wtx then some 0 else getCreditTx keys wtx.tx
  available : ∀ fUseCache,
    (w.getAvailableCredit keys wtx fUseCache).1 = if w.immature wtx then some 0 else getAvailableTx keys wtx
  change : (w.getChange keys wtx).1 = w.getChangeTx keys wtx.tx

variable {env keys}

theorem AmountsReached.accurate {w : WalletCoins}
    (reached : AmountsReached env keys (fun w event => event.Apart env keys w) w) : w.AllAccurate keys := by
  induction reached with
  | start empty =>
      intro hash wtx found
      rw [empty] at found
      cases found
  | event event _ allowed ih => exact AmountEvent.step_accurate ih event allowed

/-- Where no cached debit or change depends on what is inserted or erased, every query answers with the current
amount. -/
theorem cached_amounts_current {w : WalletCoins}
    (reached : AmountsReached env keys (fun w event => event.Apart env keys w) w) {hash : UInt256} {wtx : CWalletTx}
    (found : w.mapWallet hash = some wtx) : w.Current keys wtx := by
  have accurate := reached.accurate hash wtx found
  exact ⟨accurate.getDebit.1, fun fUseCache => (accurate.getCredit fUseCache).1,
    fun fUseCache => (accurate.getAvailableCredit fUseCache).1, accurate.getChange.1⟩

end Runs

section Concrete

/-- A coin is added to an empty wallet, and its debit asked for. -/
theorem cached_amounts_current_sample :
    WalletCoins.Current .all (AmountEvent.step (Env.labelled true) .all (WalletCoins.empty.add coinTx) (.getDebit 1))
      { coinTx with nDebitCached := some 0 } := by
  refine @cached_amounts_current (Env.labelled true) _ _
    (.event (.getDebit 1) (.event (.coins (.addToWallet coinTx [])) (.start rfl) ?_) trivial) 1 _ rfl
  intro wtxIn same
  exact ⟨fun _ other wtx _ found => (nomatch found), fun other wtx _ found => (nomatch found)⟩

/-- A transaction is added and its debit asked for before the coin that it spends is added: the cached debit stays 0. -/
theorem stale_debit :
    ¬∀ (env : Env) (keys : WalletKeys) (w : WalletCoins), AmountsReached env keys (fun _ _ => True) w →
      ∀ hash wtx, w.mapWallet hash = some wtx → w.Current keys wtx := by
  intro claim
  have reached : AmountsReached (Env.labelled true) .all (fun _ _ => True)
      (AmountEvent.step (Env.labelled true) .all (AmountEvent.step (Env.labelled true) .all
        (WalletCoins.empty.add spendTx) (.getDebit 2)) (.coins (.addToWallet coinTx []))) :=
    .event _ (.event _ (.event (.coins (.addToWallet spendTx [])) (.start rfl) trivial) trivial) trivial
  have current := claim _ _ _ reached 2 _ rfl
  exact absurd current.debit (by decide)

end Concrete

end InfiniteRicks
