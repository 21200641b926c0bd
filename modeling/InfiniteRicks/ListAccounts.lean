import InfiniteRicks.AccountsSpec

/-!
# Account listings

`listaccounts` keeps a 64-bit balance for each account name, `GetAccountBalance` adds up one
account. Both net the same lists, so the listing is the exact balance with what is not final added
to it, modulo 2^64.
-/

namespace InfiniteRicks

namespace AccountWallet

variable {view : ChainView} {keys : WalletKeys} {w : AccountWallet} {strAccount : Bytes} {nMinDepth : Int}

/-! ## The exact balance -/

/-- What a transaction with some amounts is worth to an account. -/
def exactNet (w : AccountWallet) (view : ChainView) (strAccount : Bytes) (nMinDepth : Int) (t : AccountTx)
    (amounts : Amounts) : Int :=
  (if nMinDepth ≤ view.getDepthInMainChain t.wtx ∧ view.getBlocksToMaturity t.wtx = 0 then
    total (amounts.listReceived.filter (w.isReceivedBy strAccount)) else 0) -
  (if strAccount = amounts.strSentAccount then total amounts.listSent + amounts.nFee.toInt else 0)

/-- The exact total of some accounting entries. -/
def exactCredit (entries : List CAccountingEntry) : Int := (entries.map fun entry => entry.nCreditDebit.toInt).sum

/-- `GetAccountBalance` with integers in place of `int64_t`. -/
def exactAccountBalance (w : AccountWallet) (view : ChainView) (keys : WalletKeys) (strAccount : Bytes)
    (nMinDepth : Int) : Option Int :=
  (w.tally fun t =>
    if view.isFinalTx t.wtx.tx = false ∨ view.getDepthInMainChain t.wtx < 0 then some 0
    else (w.getAmounts view keys t).map (w.exactNet view strAccount nMinDepth t)).map
    fun nBalance => nBalance + exactCredit (w.listAccountCreditDebit strAccount)

theorem sum_toInt (amounts : List Int64) : amounts.sum = Int64.ofInt (amounts.map Int64.toInt).sum := by
  induction amounts with
  | nil => rfl
  | cons amount rest ih => rw [List.sum_cons, List.map_cons, List.sum_cons, Int64.ofInt_add, Int64.ofInt_toInt, ih]

/-- A value of 64 bits. -/
def Fits (n : Int) : Prop := -2 ^ 63 ≤ n ∧ n < 2 ^ 63

theorem Fits.toInt {n : Int} (fits : Fits n) : (Int64.ofInt n).toInt = n :=
  Int64.toInt_ofInt_of_le fits.1 fits.2

/-- The balance of an account in a listing, and 0 where there is none. -/
def reported (balances : AccountBalances) (strAccount : Bytes) : Int64 := (balances.lookup strAccount).getD 0

theorem reported_addTo (name strAccount : Bytes) (nAmount : Int64) (balances : AccountBalances) :
    reported (addTo name nAmount balances) strAccount =
      reported balances strAccount + if strAccount = name then nAmount else 0 := by
  rw [reported, addTo, Library.Assoc.lookup_insert_eq]
  by_cases same : strAccount = name
  · rw [if_pos same, if_pos same, same]
    rfl
  · rw [if_neg same, if_neg same, reported]
    exact (Int64.add_zero _).symm

/-- A loop that adds amounts to accounts. -/
theorem reported_foldl {α : Type} (name : α → Bytes) (nAmount : α → Int64) (items : List α) (strAccount : Bytes)
    (balances : AccountBalances) :
    reported (items.foldl (fun balances item => addTo (name item) (nAmount item) balances) balances) strAccount =
      reported balances strAccount + ((items.filter fun item => name item = strAccount).map nAmount).sum := by
  induction items generalizing balances with
  | nil => exact (Int64.add_zero _).symm
  | cons item rest ih =>
      rw [List.foldl_cons, ih, reported_addTo, Int64.add_assoc, List.filter_cons]
      by_cases same : strAccount = name item
      · rw [if_pos same, if_pos (decide_eq_true same.symm), List.map_cons, List.sum_cons]
      · rw [if_neg same, if_neg (fun holds => same (of_decide_eq_true holds).symm), Int64.zero_add]

theorem ofInt_total (amounts : List (CTxDestination × Int64)) : Int64.ofInt (total amounts) = (amounts.map Prod.snd).sum := by
  rw [sum_toInt, List.map_map]
  rfl

theorem sum_neg (amounts : List Int64) : (amounts.map fun nAmount => -nAmount).sum = -amounts.sum := by
  induction amounts with
  | nil => rfl
  | cons amount rest ih =>
      rw [List.map_cons, List.sum_cons, List.sum_cons, ih]
      grind

theorem isReceivedBy_eq (r : CTxDestination × Int64) :
    w.isReceivedBy strAccount r = decide (w.receivingAccount r = strAccount) := by
  rw [isReceivedBy, receivingAccount]
  cases w.mapAddressBook.lookup r.1 with
  | some name => rfl
  | none =>
      cases strAccount with
      | nil => rfl
      | cons c rest => rfl

/-- A transaction adds what it is worth to each account. -/
theorem listTx_spec {balances after : AccountBalances} {t : AccountTx}
    (listed : w.listTx view keys nMinDepth balances t = some after) :
    reported after strAccount = reported balances strAccount + Int64.ofInt
      (if view.getDepthInMainChain t.wtx < 0 then 0
        else ((w.getAmounts view keys t).map (w.exactNet view strAccount nMinDepth t)).getD 0) := by
  rw [listTx] at listed
  split at listed
  · rename_i absent
    obtain rfl := Option.some.inj listed
    rw [if_pos absent]
    exact (Int64.add_zero _).symm
  · rename_i present
    obtain ⟨amounts, got, rfl⟩ := Option.map_eq_some_iff.mp listed
    rw [if_neg present, got, Option.map_some, Option.getD_some]
    dsimp only
    have received : ∀ balances : AccountBalances, reported (amounts.listReceived.foldl
        (fun balances r => addTo (w.receivingAccount r) r.2 balances) balances) strAccount = reported balances strAccount +
          Int64.ofInt (total (amounts.listReceived.filter (w.isReceivedBy strAccount))) := by
      intro balances
      rw [reported_foldl w.receivingAccount Prod.snd, ofInt_total]
      exact congrArg (fun keep => _ + ((amounts.listReceived.filter keep).map Prod.snd).sum)
        (funext fun r => isReceivedBy_eq r).symm
    have sent : ∀ balances : AccountBalances, reported (amounts.listSent.foldl
        (fun balances s => addTo amounts.strSentAccount (-s.2) balances) balances) strAccount = reported balances strAccount +
          if strAccount = amounts.strSentAccount then -Int64.ofInt (total amounts.listSent) else 0 := by
      intro balances
      rw [reported_foldl (fun _ : CTxDestination × Int64 => amounts.strSentAccount) fun s => -s.2, ofInt_total]
      by_cases own : strAccount = amounts.strSentAccount
      · rw [if_pos own, List.filter_eq_self.mpr fun _ _ => decide_eq_true own.symm, ← sum_neg, List.map_map]
        rfl
      · rw [if_neg own, List.filter_eq_nil_iff.mpr fun _ _ holds => own (of_decide_eq_true holds).symm]
        rfl
    have net : Int64.ofInt (w.exactNet view strAccount nMinDepth t amounts) =
        (if nMinDepth ≤ view.getDepthInMainChain t.wtx ∧ view.getBlocksToMaturity t.wtx = 0 then
          Int64.ofInt (total (amounts.listReceived.filter (w.isReceivedBy strAccount))) else 0) -
        (if strAccount = amounts.strSentAccount then Int64.ofInt (total amounts.listSent) + amounts.nFee else 0) := by
      rw [exactNet, Int64.ofInt_sub]
      refine congrArg₂ (· - ·) ?_ ?_
      · split <;> rfl
      · split
        · rw [Int64.ofInt_add, Int64.ofInt_toInt]
        · rfl
    rw [net]
    split
    · rw [received, sent, reported_addTo]
      split <;> grind
    · rw [sent, reported_addTo]
      split <;> grind

theorem reported_listTxs (items : List AccountTx) {balances after : AccountBalances}
    (listed : items.foldlM (w.listTx view keys nMinDepth) balances = some after) :
    reported after strAccount = reported balances strAccount + Int64.ofInt ((items.map fun t =>
      if view.getDepthInMainChain t.wtx < 0 then 0
      else ((w.getAmounts view keys t).map (w.exactNet view strAccount nMinDepth t)).getD 0).sum) := by
  induction items generalizing balances with
  | nil =>
      obtain rfl := Option.some.inj listed
      exact (Int64.add_zero _).symm
  | cons t rest ih =>
      rw [List.foldlM_cons] at listed
      obtain ⟨next, first, others⟩ := Option.bind_eq_some_iff.mp listed
      rw [ih others, listTx_spec first, List.map_cons, List.sum_cons, Int64.ofInt_add, Int64.add_assoc]

/-- The accounts of the address book start with 0. -/
theorem reported_start (entries : List (Sigma fun _ : CTxDestination => Bytes)) (balances : AccountBalances)
    (zero : reported balances strAccount = 0) :
    reported (entries.foldl (fun (balances : AccountBalances) entry =>
      if keys.isMineDestination entry.1 then balances.insert entry.2 0 else balances) balances) strAccount = 0 := by
  induction entries generalizing balances with
  | nil => exact zero
  | cons entry rest ih =>
      refine ih _ ?_
      dsimp only
      split
      · rw [reported, Library.Assoc.lookup_insert_eq]
        split
        · rfl
        · exact zero
      · exact zero

/-- What `listaccounts` reports is the sum over all that is in the chain or the pool, modulo 2^64. -/
theorem reported_listaccounts {balances : AccountBalances} (listed : w.listaccounts view keys nMinDepth = some balances) :
    reported balances strAccount = Int64.ofInt
      ((w.txs.map fun t => if view.getDepthInMainChain t.wtx < 0 then 0
          else ((w.getAmounts view keys t).map (w.exactNet view strAccount nMinDepth t)).getD 0).sum +
        exactCredit (w.acentries.filter fun entry => entry.strAccount = strAccount)) := by
  rw [listaccounts] at listed
  obtain ⟨after, run, rfl⟩ := Option.map_eq_some_iff.mp listed
  have all : w.listAccountCreditDebit [42] = w.acentries := if_pos rfl
  rw [all, reported_foldl CAccountingEntry.strAccount CAccountingEntry.nCreditDebit, reported_listTxs _ run,
    reported_start _ _ rfl, Int64.zero_add, Int64.ofInt_add, exactCredit, sum_toInt, List.map_map]
  rfl

/-! ## Where the two agree -/

/-- What transactions that are not final are worth to an account in the listing. -/
def notFinal (w : AccountWallet) (view : ChainView) (keys : WalletKeys) (strAccount : Bytes) (nMinDepth : Int) : Int :=
  (w.txs.map fun t =>
    if view.isFinalTx t.wtx.tx = false ∧ 0 ≤ view.getDepthInMainChain t.wtx then
      ((w.getAmounts view keys t).map (w.exactNet view strAccount nMinDepth t)).getD 0
    else 0).sum

/-- The accounting entries that `GetAccountBalance` adds to the account `*` though they belong to others. -/
def foreignCredit (w : AccountWallet) (strAccount : Bytes) : Int :=
  exactCredit (w.listAccountCreditDebit strAccount) -
    exactCredit (w.acentries.filter fun entry => entry.strAccount = strAccount)

theorem exactAccountBalance_eq {nBalance : Int} (balance : w.exactAccountBalance view keys strAccount nMinDepth = some nBalance) :
    (w.txs.map fun t => if view.getDepthInMainChain t.wtx < 0 then 0
        else ((w.getAmounts view keys t).map (w.exactNet view strAccount nMinDepth t)).getD 0).sum +
      exactCredit (w.acentries.filter fun entry => entry.strAccount = strAccount) =
      nBalance + (w.notFinal view keys strAccount nMinDepth - w.foreignCredit strAccount) := by
  obtain ⟨total, tallied, rfl⟩ := Option.map_eq_some_iff.mp balance
  obtain ⟨nets, each, rfl⟩ := Option.map_eq_some_iff.mp tallied
  have sums : ∀ (items : List AccountTx) (nets : List Int),
      (items.mapM fun t => if view.isFinalTx t.wtx.tx = false ∨ view.getDepthInMainChain t.wtx < 0 then some 0
        else (w.getAmounts view keys t).map (w.exactNet view strAccount nMinDepth t)) = some nets →
      (items.map fun t => if view.getDepthInMainChain t.wtx < 0 then 0
        else ((w.getAmounts view keys t).map (w.exactNet view strAccount nMinDepth t)).getD 0).sum =
      nets.sum + (items.map fun t => if view.isFinalTx t.wtx.tx = false ∧ 0 ≤ view.getDepthInMainChain t.wtx then
        ((w.getAmounts view keys t).map (w.exactNet view strAccount nMinDepth t)).getD 0 else 0).sum := by
    intro items
    induction items with
    | nil =>
        intro nets each
        obtain rfl := Option.some.inj each
        rfl
    | cons t rest ih =>
        intro nets each
        rw [List.mapM_cons] at each
        obtain ⟨net, first, each⟩ := Option.bind_eq_some_iff.mp each
        obtain ⟨others, restEach, whole⟩ := Option.bind_eq_some_iff.mp each
        obtain rfl := Option.some.inj whole
        rw [List.map_cons, List.map_cons, List.sum_cons, List.sum_cons, List.sum_cons, ih others restEach]
        by_cases absent : view.getDepthInMainChain t.wtx < 0
        · rw [if_pos (.inr absent)] at first
          obtain rfl := Option.some.inj first
          rw [if_pos absent, if_neg (fun both => absurd both.2 (by omega))]
          omega
        · rw [if_neg absent]
          cases final : view.isFinalTx t.wtx.tx with
          | false =>
              rw [final, if_pos (.inl rfl)] at first
              obtain rfl := Option.some.inj first
              rw [if_pos ⟨rfl, by omega⟩]
              omega
          | true =>
              rw [final, if_neg (by simp [absent])] at first
              rw [first, Option.getD_some, if_neg (by simp)]
              omega
  rw [sums _ _ each, notFinal, foreignCredit]
  omega

theorem ofInt_eq_iff (n m : Int) : (Int64.ofInt (n + m)).toInt = n ↔ Fits n ∧ (2 ^ 64 : Int) ∣ m := by
  rw [Int64.toInt_ofInt, Int.bmod_def, Fits]
  have size : Int64.size = 2 ^ 64 := rfl
  rw [size]
  split <;> omega

/-- An account is listed with its exact balance where this fits and nothing else is added, modulo 2^64. -/
theorem listaccounts_eq_iff {balances : AccountBalances} {nBalance : Int}
    (listed : w.listaccounts view keys nMinDepth = some balances)
    (balance : w.exactAccountBalance view keys strAccount nMinDepth = some nBalance) :
    (reported balances strAccount).toInt = nBalance ↔
      Fits nBalance ∧ (2 ^ 64 : Int) ∣ w.notFinal view keys strAccount nMinDepth - w.foreignCredit strAccount := by
  rw [reported_listaccounts listed, exactAccountBalance_eq balance]
  exact ofInt_eq_iff _ _

section Concrete

/-- The memory pool at a height; what is locked to it is not final yet. -/
def lockedPool : ChainView where
  isFinalTx tx := decide (tx.nLockTime < 7)
  getDepthInMainChain _ := 0
  nCoinbaseMaturity := 24

/-- Someone pays 5 to an address of the account `a`, with a lock time. -/
def payingTx (nLockTime : UInt32) : AccountTx where
  wtx := .ofTx ⟨1, 0, [⟨⟨9, 0⟩, [], 0⟩], [⟨5, CScript.payToKeyID 7⟩], nLockTime⟩
  vtxPrev := []
  strFromAccount := []

def paidWallet (nLockTime : UInt32) : AccountWallet where
  mapWallet := (∅ : AList fun _ : UInt256 => AccountTx).insert 1 (payingTx nLockTime)
  mapAddressBook := (∅ : AList fun _ : CTxDestination => Bytes).insert (.keyID 7) [97]
  acentries := []

/-- A final transaction is listed and counted alike. -/
theorem listaccounts_eq_iff_final :
    Fits 5 ∧ (2 ^ 64 : Int) ∣ (paidWallet 6).notFinal lockedPool oneKey [97] 0 - (paidWallet 6).foreignCredit [97] := by
  have listed : (paidWallet 6).listaccounts lockedPool oneKey 0 =
      some (addTo [97] 5 (addTo [] (-0) ((∅ : AccountBalances).insert [97] 0))) := rfl
  have balance : (paidWallet 6).exactAccountBalance lockedPool oneKey [97] 0 = some 5 := rfl
  exact (listaccounts_eq_iff listed balance).mp rfl

/-- A transaction that is not final yet is listed and not counted. -/
theorem notFinal_listed :
    ¬∀ (view : ChainView) (keys : WalletKeys) (w : AccountWallet) (strAccount : Bytes) (nMinDepth : Int) balances nBalance,
      w.listaccounts view keys nMinDepth = some balances → w.exactAccountBalance view keys strAccount nMinDepth = some nBalance →
        (reported balances strAccount).toInt = nBalance := by
  intro claim
  have same := claim lockedPool oneKey (paidWallet 7) [97] 0
    (addTo [97] 5 (addTo [] (-0) ((∅ : AccountBalances).insert [97] 0))) 0 rfl rfl
  cases same

end Concrete

end AccountWallet

end InfiniteRicks
