import InfiniteRicks.Accounts
import InfiniteRicks.Library.Assoc
import InfiniteRicks.Value
import InfiniteRicks.WalletCache

/-!
# Two ways to a balance

`GetBalance` adds what is unspent, `getbalance` of `*` nets what was received and sent. Each
transaction contributes to their difference on its own: outputs that the second keeps back from
the lists against coins that the first does not count.
-/

namespace InfiniteRicks

namespace AccountWallet

/-! ## Exact sums -/

/-- The value of the outputs that count. -/
def valueOf (counts : CTxOut → Bool) (vout : List CTxOut) : Int :=
  ((vout.filter counts).map fun txout => txout.nValue.toInt).sum

theorem valueOf_cons (counts : CTxOut → Bool) (txout : CTxOut) (rest : List CTxOut) :
    valueOf counts (txout :: rest) = (if counts txout then txout.nValue.toInt else 0) + valueOf counts rest := by
  rw [valueOf, List.filter_cons]
  split
  · rw [List.map_cons, List.sum_cons, valueOf]
  · rw [Int.zero_add, valueOf]

/-- An amount that is added without leaving the money range is added exactly. -/
theorem toInt_add_of_moneyRange {sum amount : Int64} (nonneg : 0 ≤ sum.toInt) (inRange : moneyRange (sum + amount) = true) :
    (sum + amount).toInt = sum.toInt + amount.toInt ∧ 0 ≤ (sum + amount).toInt := by
  have least := moneyRange_iff.mp inRange
  refine ⟨?_, least⟩
  have sumLt := sum.toInt_lt
  have amountLt := amount.toInt_lt
  have amountLe := amount.le_toInt
  rw [Int64.toInt_add, Int.bmod_def] at least ⊢
  split <;> rename_i wrapped <;> simp only [wrapped, if_true, if_false] at least <;> omega

theorem sumMoney_exact {amounts : List Int64} {sum : Int64} (summed : WalletCoins.sumMoney amounts = some sum) :
    sum.toInt = (amounts.map Int64.toInt).sum ∧ 0 ≤ sum.toInt := by
  have run : ∀ (amounts : List Int64) {start sum : Int64}, 0 ≤ start.toInt →
      amounts.foldlM (fun sum amount => if moneyRange (sum + amount) then some (sum + amount) else none) start = some sum →
      sum.toInt = start.toInt + (amounts.map Int64.toInt).sum ∧ 0 ≤ sum.toInt := by
    intro amounts
    induction amounts with
    | nil =>
        rintro start sum nonneg summed
        obtain rfl := Option.some.inj summed
        exact ⟨(Int.add_zero _).symm, nonneg⟩
    | cons amount rest ih =>
        intro start sum nonneg summed
        rw [List.foldlM_cons] at summed
        split at summed
        · rename_i inRange
          obtain ⟨exact_, nonneg⟩ := toInt_add_of_moneyRange nonneg inRange
          obtain ⟨value, final⟩ := ih nonneg summed
          rw [List.map_cons, List.sum_cons]
          exact ⟨by omega, final⟩
        · cases summed
  obtain ⟨value, nonneg⟩ := run amounts le_rfl summed
  exact ⟨value.trans (Int.zero_add _), nonneg⟩

variable {env : Env} {view : ChainView} {keys : WalletKeys} {w : AccountWallet}

/-- The value of what the inputs of a transaction spend of the wallet's own outputs. -/
def debits (keys : WalletKeys) (view : ChainView) (w : AccountWallet) (t : AccountTx) : Int :=
  (t.wtx.tx.vin.map fun txin => ((w.coins view).debitOf keys txin).toInt).sum

theorem getDebitTx_exact {t : AccountTx} {nDebit : Int64} (got : (w.coins view).getDebitTx keys t.wtx.tx = some nDebit) :
    nDebit.toInt = w.debits keys view t ∧ 0 ≤ nDebit.toInt := by
  obtain ⟨value, nonneg⟩ := sumMoney_exact got
  rw [List.map_map] at value
  exact ⟨value, nonneg⟩

/-- Whether an output appears in the lists of `GetAmounts`. -/
def listedIn (keys : WalletKeys) (view : ChainView) (w : AccountWallet) (t : AccountTx) (txout : CTxOut) : Bool :=
  !txout.scriptPubKey.isEmpty &&
    (if 0 < w.debits keys view t then !(w.coins view).isChange keys txout else keys.isMine txout.scriptPubKey)

theorem total_listEntry (vout : List CTxOut) : total (vout.map (listEntry keys)) =
    (vout.map fun txout => txout.nValue.toInt).sum := by
  rw [total, List.map_map]
  rfl

theorem valueOf_add_not (counts : CTxOut → Bool) (vout : List CTxOut) :
    valueOf counts vout + valueOf (fun txout => !counts txout) vout = outputsValue vout := by
  induction vout with
  | nil => rfl
  | cons txout rest ih =>
      rw [valueOf_cons, valueOf_cons]
      have value : outputsValue (txout :: rest) = txout.nValue.toInt + outputsValue rest := by
        rw [outputsValue, List.map_cons, List.sum_cons, outputsValue]
      cases counts txout <;> simp only [Bool.not_true, Bool.not_false, Bool.false_eq_true, if_true, if_false] <;> omega

/-- What `GetAmounts` nets for a transaction. -/
theorem getAmounts_totals {t : AccountTx} (accurate : (w.coins view).Accurate keys t.wtx) {amounts : Amounts}
    (got : w.getAmounts view keys t = some amounts) :
    total amounts.listReceived =
        valueOf (fun txout => w.listedIn keys view t txout && keys.isMine txout.scriptPubKey) t.wtx.tx.vout ∧
      total amounts.listSent + amounts.nFee.toInt = w.debits keys view t -
        (if 0 < w.debits keys view t then valueOf (fun txout => !w.listedIn keys view t txout) t.wtx.tx.vout else 0) ∧
      0 ≤ w.debits keys view t ∧ amounts.strSentAccount = t.strFromAccount := by
  rw [getAmounts, accurate.getDebit.1] at got
  obtain ⟨nDebit, debit, got⟩ := Option.bind_eq_some_iff.mp got
  obtain ⟨exact_, nonneg⟩ := getDebitTx_exact debit
  have sign : 0 < nDebit ↔ 0 < w.debits keys view t := by
    rw [Int64.lt_iff_toInt_lt, exact_]
    rfl
  have listed : w.isListed view keys nDebit = w.listedIn keys view t := by
    funext txout
    simp only [isListed, listedIn, sign]
  obtain ⟨nFee, fee, got⟩ := Option.bind_eq_some_iff.mp got
  obtain rfl := Option.some.inj got
  refine ⟨?_, ?_, exact_ ▸ nonneg, rfl⟩
  · rw [total_listEntry, listed, List.filter_filter, valueOf]
    simp only [Bool.and_comm]
  · dsimp only
    rw [feeOf] at fee
    by_cases own : 0 < nDebit
    · rw [if_pos own] at fee ⊢
      rw [if_pos (sign.mp own), total_listEntry, listed]
      obtain ⟨nValueOut, summed, rfl⟩ := Option.map_eq_some_iff.mp fee
      obtain ⟨value, valueNonneg⟩ := CTransaction.addValueOut_exact (by decide) summed
      have split_ := valueOf_add_not (w.listedIn keys view t) t.wtx.tx.vout
      rw [toInt_sub_of_nonneg nonneg valueNonneg, exact_, value]
      have zero : (0 : Int64).toInt = 0 := rfl
      rw [valueOf] at split_
      omega
    · rw [if_neg own] at fee ⊢
      rw [if_neg (fun positive => own (sign.mpr positive))]
      obtain rfl := Option.some.inj fee
      have none : w.debits keys view t = 0 := by
        have := mt sign.mpr own
        omega
      rw [none]
      rfl

/-! ## `getbalance` of `*` and `GetBalance` -/

/-- Whether a wallet transaction spends an output. -/
def spends (w : AccountWallet) (hash : UInt256) (n : Nat) : Bool :=
  w.txs.any fun t => t.wtx.tx.vin.any fun txin => decide (txin.prevout.hash = hash ∧ txin.prevout.n.toNat = n)

/-- An own output is marked spent where a wallet transaction spends it, and nowhere else. -/
def ExactFlags (keys : WalletKeys) (w : AccountWallet) : Prop :=
  ∀ hash t, w.mapWallet.lookup hash = some t → ∀ n txout, t.wtx.tx.vout[n]? = some txout →
    keys.isMine txout.scriptPubKey = true → t.wtx.isSpent n = w.spends hash n

/-- The value of the own outputs of a transaction that wallet transactions spend. -/
def spentValue (keys : WalletKeys) (w : AccountWallet) (entry : Sigma fun _ : UInt256 => AccountTx) : Int :=
  ((entry.2.wtx.tx.vout.zipIdx.filter fun out => keys.isMine out.1.scriptPubKey && w.spends entry.1 out.2).map
    fun out => out.1.nValue.toInt).sum

/-- What an own transaction keeps out of both lists though it is no mature coin of the wallet: outputs without a script
and change, of those that are not the wallet's own or belong to a reward that is not mature. -/
def keptBack (keys : WalletKeys) (view : ChainView) (w : AccountWallet) (t : AccountTx) : Int :=
  if 0 < w.debits keys view t then
    valueOf (fun txout => (txout.scriptPubKey.isEmpty || (w.coins view).isChange keys txout) &&
      (!keys.isMine txout.scriptPubKey || (w.coins view).immature t.wtx)) t.wtx.tx.vout
  else 0

/-- What is kept back in the whole wallet. -/
def totalKeptBack (keys : WalletKeys) (view : ChainView) (w : AccountWallet) : Int :=
  (w.txs.map (w.keptBack keys view)).sum

/-- The spent own outputs of rewards that are not mature. -/
def spentEarly (keys : WalletKeys) (view : ChainView) (w : AccountWallet) : Int :=
  (w.mapWallet.entries.map fun entry =>
    if (w.coins view).immature entry.2.wtx then w.spentValue keys entry else 0).sum

/-- What the inputs spend of own outputs beyond spending each of them once. -/
def spentAgain (keys : WalletKeys) (view : ChainView) (w : AccountWallet) : Int :=
  (w.txs.map (w.debits keys view)).sum - (w.mapWallet.entries.map (w.spentValue keys)).sum

theorem mature_iff (t : AccountTx) : view.getBlocksToMaturity t.wtx = 0 ↔ (w.coins view).immature t.wtx = false := by
  change _ ↔ ((t.wtx.tx.isCoinBase || t.wtx.tx.isCoinStake) && decide (0 < view.getBlocksToMaturity t.wtx)) = false
  rw [ChainView.getBlocksToMaturity]
  cases t.wtx.tx.isCoinBase || t.wtx.tx.isCoinStake with
  | false => simp
  | true =>
      simp only [Bool.not_true, Bool.false_eq_true, if_false, Bool.true_and, decide_eq_false_iff_not]
      omega

/-- What is received and what is kept back make up the own outputs and what is kept back in the end. -/
theorem received_add_kept (t : AccountTx) (mature : Bool) (vout : List CTxOut)
    (own : 0 < w.debits keys view t) :
    (if mature then valueOf (fun txout => w.listedIn keys view t txout && keys.isMine txout.scriptPubKey) vout else 0) +
        valueOf (fun txout => !w.listedIn keys view t txout) vout =
      (if mature then valueOf (fun txout => keys.isMine txout.scriptPubKey) vout else 0) +
        valueOf (fun txout => (txout.scriptPubKey.isEmpty || (w.coins view).isChange keys txout) &&
          (!keys.isMine txout.scriptPubKey || !mature)) vout := by
  induction vout with
  | nil => rfl
  | cons txout rest ih =>
      simp only [valueOf_cons]
      have listed : w.listedIn keys view t txout =
          (!txout.scriptPubKey.isEmpty && !(w.coins view).isChange keys txout) := by
        rw [listedIn, if_pos own]
      rw [listed]
      cases txout.scriptPubKey.isEmpty <;> cases (w.coins view).isChange keys txout <;>
        cases keys.isMine txout.scriptPubKey <;> cases mature <;> simp at ih ⊢ <;> omega

theorem received_foreign (empty : keys.isMine [] = false) (t : AccountTx) (vout : List CTxOut)
    (foreign : ¬0 < w.debits keys view t) :
    valueOf (fun txout => w.listedIn keys view t txout && keys.isMine txout.scriptPubKey) vout =
      valueOf (fun txout => keys.isMine txout.scriptPubKey) vout := by
  refine congrArg (valueOf · vout) (funext fun txout => ?_)
  rw [listedIn, if_neg foreign]
  cases own : keys.isMine txout.scriptPubKey with
  | false => rw [Bool.and_false]
  | true =>
      have script : txout.scriptPubKey.isEmpty = false := Bool.eq_false_iff.mpr fun missing => by
        rw [List.isEmpty_iff.mp missing, empty] at own
        cases own
      rw [script]
      rfl

/-- The own outputs are those that are available and those that are spent. -/
theorem available_add_spent (flags : w.ExactFlags keys) {entry : Sigma fun _ : UInt256 => AccountTx}
    (member : entry ∈ w.mapWallet.entries) {nCredit : Int64}
    (got : WalletCoins.getAvailableTx keys entry.2.wtx = some nCredit) :
    nCredit.toInt + w.spentValue keys entry =
      valueOf (fun txout => keys.isMine txout.scriptPubKey) entry.2.wtx.tx.vout := by
  have found := AList.mem_lookup_iff.mpr member
  rw [WalletCoins.getAvailableTx, WalletCoins.sumOutputs] at got
  split at got
  · rw [(sumMoney_exact got).1, spentValue, WalletCoins.unspentOutputs, List.map_map, List.map_map]
    have exact_ : ∀ out ∈ entry.2.wtx.tx.vout.zipIdx, keys.isMine out.1.scriptPubKey = true →
        entry.2.wtx.isSpent out.2 = w.spends entry.1 out.2 := fun out inside own =>
      flags entry.1 entry.2 found out.2 out.1 (List.mem_zipIdx_iff_getElem?.mp inside) own
    have split_ : ∀ outs : List (CTxOut × Nat), (∀ out ∈ outs, keys.isMine out.1.scriptPubKey = true →
        entry.2.wtx.isSpent out.2 = w.spends entry.1 out.2) →
        ((outs.filter fun out => !entry.2.wtx.isSpent out.2).map (Int64.toInt ∘
          (fun txout => if keys.isMine txout.scriptPubKey then txout.nValue else 0) ∘ Prod.fst)).sum +
        ((outs.filter fun out => keys.isMine out.1.scriptPubKey && w.spends entry.1 out.2).map
          fun out => out.1.nValue.toInt).sum =
        valueOf (fun txout => keys.isMine txout.scriptPubKey) (outs.map Prod.fst) := by
      intro outs exact_
      induction outs with
      | nil => rfl
      | cons out rest ih =>
          obtain ⟨first, others⟩ := List.forall_mem_cons.mp exact_
          have next := ih others
          rw [List.map_cons, valueOf_cons, ← next]
          cases own : keys.isMine out.1.scriptPubKey with
          | false =>
              cases spent : entry.2.wtx.isSpent out.2 <;> simp [own, spent, List.filter_cons]
          | true =>
              have flag := first own
              cases spent : entry.2.wtx.isSpent out.2 with
              | false =>
                  rw [spent] at flag
                  simp [own, spent, ← flag, List.filter_cons]
                  omega
              | true =>
                  rw [spent] at flag
                  simp [own, spent, ← flag, List.filter_cons]
                  omega
    have outputs : entry.2.wtx.tx.vout.zipIdx.map Prod.fst = entry.2.wtx.tx.vout := List.zipIdx_map_fst 0 _
    have total := split_ _ exact_
    rw [outputs] at total
    exact total
  · cases got

/-- Trusted transactions are in the chain or in the memory pool. -/
theorem depth_of_isTrusted {fConfChange : Bool} {fuel : Nat} {t : AccountTx}
    (trusted : w.isTrusted env view keys fConfChange fuel t = some true) : 0 ≤ view.getDepthInMainChain t.wtx := by
  rw [isTrusted] at trusted
  split at trusted
  · cases trusted
  split at trusted
  · omega
  split at trusted
  · cases trusted
  · omega

/-- What one transaction adds to the total of `getbalance` beyond its available credit. -/
theorem netted_eq (empty : keys.isMine [] = false) (flags : w.ExactFlags keys) {entry : Sigma fun _ : UInt256 => AccountTx}
    (member : entry ∈ w.mapWallet.entries) (accurate : (w.coins view).Accurate keys entry.2.wtx)
    (present : 0 ≤ view.getDepthInMainChain entry.2.wtx) {amounts : Amounts}
    (got : w.getAmounts view keys entry.2 = some amounts) {nCredit : Int64}
    (credit : ((w.coins view).getAvailableCredit keys entry.2.wtx true).1 = some nCredit) :
    (if 0 ≤ view.getDepthInMainChain entry.2.wtx ∧ view.getBlocksToMaturity entry.2.wtx = 0 then total amounts.listReceived
        else 0) - total amounts.listSent - amounts.nFee.toInt =
      nCredit.toInt + (w.keptBack keys view entry.2 +
        (if (w.coins view).immature entry.2.wtx then 0 else w.spentValue keys entry) - w.debits keys view entry.2) := by
  obtain ⟨received, sent, nonneg, -⟩ := getAmounts_totals accurate got
  rw [accurate.getAvailableCredit true |>.1] at credit
  have mature := @mature_iff view w entry.2
  rw [received, keptBack]
  cases immature : (w.coins view).immature entry.2.wtx with
  | true =>
      rw [immature, if_pos rfl] at credit
      obtain rfl := Option.some.inj credit
      rw [immature] at mature
      rw [if_neg (fun both => Bool.noConfusion (mature.mp both.2)), if_pos rfl]
      have zero : (0 : Int64).toInt = 0 := rfl
      by_cases own : 0 < w.debits keys view entry.2
      · have kept := @received_add_kept view _ _ entry.2 false entry.2.wtx.tx.vout own
        simp only [Bool.false_eq_true, if_false, Bool.not_false, zero_add] at kept
        rw [if_pos own] at sent ⊢
        omega
      · rw [if_neg own] at sent ⊢
        omega
  | false =>
      rw [immature, if_neg Bool.false_ne_true] at credit
      have available := available_add_spent flags member credit
      rw [if_pos ⟨present, mature.mpr immature⟩, if_neg Bool.false_ne_true]
      by_cases own : 0 < w.debits keys view entry.2
      · have kept := @received_add_kept view _ _ entry.2 true entry.2.wtx.tx.vout own
        simp only [if_true, Bool.not_true] at kept
        rw [if_pos own] at sent ⊢
        omega
      · rw [if_neg own] at sent ⊢
        rw [received_foreign empty entry.2 _ own]
        omega

theorem sum_of_mapM {α : Type} {items : List α} {first second : α → Option Int} {difference : α → Int}
    (each : ∀ item ∈ items, ∀ a b, first item = some a → second item = some b → a = b + difference item)
    {as bs : List Int} (firsts : items.mapM first = some as) (seconds : items.mapM second = some bs) :
    as.sum = bs.sum + (items.map difference).sum := by
  induction items generalizing as bs with
  | nil =>
      obtain rfl := Option.some.inj firsts
      obtain rfl := Option.some.inj seconds
      rfl
  | cons item rest ih =>
      obtain ⟨here, others⟩ := List.forall_mem_cons.mp each
      rw [List.mapM_cons] at firsts seconds
      obtain ⟨a, gotFirst, firsts⟩ := Option.bind_eq_some_iff.mp firsts
      obtain ⟨b, gotSecond, seconds⟩ := Option.bind_eq_some_iff.mp seconds
      obtain ⟨as, restFirst, whole⟩ := Option.bind_eq_some_iff.mp firsts
      obtain ⟨bs, restSecond, whole'⟩ := Option.bind_eq_some_iff.mp seconds
      obtain rfl := Option.some.inj whole
      obtain rfl := Option.some.inj whole'
      rw [List.sum_cons, List.sum_cons, List.map_cons, List.sum_cons, ih others restFirst restSecond,
        here a b gotFirst gotSecond]
      omega

/-- The difference of two sums over the wallet. -/
theorem tally_eq {first second : AccountTx → Option Int} {difference : (Sigma fun _ : UInt256 => AccountTx) → Int}
    (each : ∀ entry ∈ w.mapWallet.entries, ∀ a b, first entry.2 = some a → second entry.2 = some b → a = b + difference entry)
    {a b : Int} (tallied : w.tally first = some a) (tallied' : w.tally second = some b) :
    a = b + (w.mapWallet.entries.map difference).sum := by
  obtain ⟨as, firsts, rfl⟩ := Option.map_eq_some_iff.mp tallied
  obtain ⟨bs, seconds, rfl⟩ := Option.map_eq_some_iff.mp tallied'
  rw [txs, List.mapM_map] at firsts seconds
  exact sum_of_mapM each firsts seconds

/-- The two balances of a wallet of trusted transactions agree exactly where what own transactions keep back is worth
as much as the early and the repeated spends. -/
theorem getbalance_eq_getBalance_iff (empty : keys.isMine [] = false) (flags : w.ExactFlags keys)
    (accurate : ∀ t ∈ w.txs, (w.coins view).Accurate keys t.wtx) {fConfChange : Bool} {fuel : Nat}
    (trusted : ∀ t ∈ w.txs, w.isTrusted env view keys fConfChange fuel t = some true) {nAll nBalance : Int}
    (all : w.getbalanceAll env view keys fConfChange fuel 0 = some nAll)
    (balance : w.getBalance env view keys fConfChange fuel = some nBalance) :
    nAll = nBalance ↔ w.totalKeptBack keys view = w.spentEarly keys view + w.spentAgain keys view := by
  have tallied := @tally_eq w _ _ (fun entry => w.keptBack keys view entry.2 +
    (if (w.coins view).immature entry.2.wtx then 0 else w.spentValue keys entry) - w.debits keys view entry.2)
    (fun entry member a b first second => by
      have inside : entry.2 ∈ w.txs := List.mem_map_of_mem member
      have trust := trusted entry.2 inside
      rw [trust, Option.bind_some, if_pos rfl] at first second
      obtain ⟨amounts, got, rfl⟩ := Option.map_eq_some_iff.mp first
      obtain ⟨nCredit, credit, rfl⟩ := Option.map_eq_some_iff.mp second
      exact netted_eq empty flags member (accurate entry.2 inside) (depth_of_isTrusted trust) got credit)
    _ _ all balance
  have sums : ∀ entries : List (Sigma fun _ : UInt256 => AccountTx),
      (entries.map fun entry => w.keptBack keys view entry.2 +
        (if (w.coins view).immature entry.2.wtx then 0 else w.spentValue keys entry) - w.debits keys view entry.2).sum =
      ((entries.map Sigma.snd).map (w.keptBack keys view)).sum -
        (entries.map fun entry => if (w.coins view).immature entry.2.wtx then w.spentValue keys entry else 0).sum -
        (((entries.map Sigma.snd).map (w.debits keys view)).sum - (entries.map (w.spentValue keys)).sum) := by
    intro entries
    induction entries with
    | nil => rfl
    | cons entry rest ih =>
        simp only [List.map_cons, List.sum_cons, ih]
        split <;> omega
  rw [sums] at tallied
  change nAll = nBalance + (w.totalKeptBack keys view - w.spentEarly keys view - w.spentAgain keys view) at tallied
  omega

section Concrete

/-- Keys with one own script. -/
def oneKey : WalletKeys where
  isMine script := decide (script = CScript.payToKeyID 7)
  extractDestination script := if script = CScript.payToKeyID 7 then some (.keyID 7) else none
  isMineDestination dest := decide (dest = .keyID 7)
  nMinimumInputValue := 0

theorem oneKey_empty : oneKey.isMine [] = false := by decide

/-- A chain in which rewards are one block deep. -/
def freshRewards : ChainView where
  isFinalTx _ := true
  getDepthInMainChain wtx := if wtx.tx.isCoinStake then 1 else 100
  nCoinbaseMaturity := 24

/-- A coin of 10, and a coinstake that spends it and pays 11. -/
def stakedCoin : AccountTx where
  wtx := { CWalletTx.ofTx ⟨1, 0, [⟨⟨9, 0⟩, [], 0xffffffff⟩], [⟨10, CScript.payToKeyID 7⟩], 1⟩ with vfSpent := [true] }
  vtxPrev := []
  strFromAccount := []

def stakeReward : AccountTx where
  wtx := .ofTx ⟨1, 0, [⟨⟨1, 0⟩, [], 0xffffffff⟩], [⟨0, []⟩, ⟨11, CScript.payToKeyID 7⟩], 2⟩
  vtxPrev := []
  strFromAccount := []

/-- A wallet with the two, and an address book. -/
def stakingWallet (mapAddressBook : AList fun _ : CTxDestination => Bytes) : AccountWallet where
  mapWallet := ((∅ : AList fun _ : UInt256 => AccountTx).insert 1 stakedCoin).insert 2 stakeReward
  mapAddressBook := mapAddressBook
  acentries := []

theorem stakingWallet_txs (mapAddressBook : AList fun _ : CTxDestination => Bytes) :
    (stakingWallet mapAddressBook).txs = [stakeReward, stakedCoin] := rfl

theorem stakingWallet_flags (mapAddressBook : AList fun _ : CTxDestination => Bytes) :
    (stakingWallet mapAddressBook).ExactFlags oneKey := by
  have outputs : ∀ hash n, (stakingWallet mapAddressBook).spends hash n = ([stakeReward, stakedCoin].any fun t =>
      t.wtx.tx.vin.any fun txin => decide (txin.prevout.hash = hash ∧ txin.prevout.n.toNat = n)) := fun _ _ => rfl
  intro hash t found n txout output own
  change (((∅ : AList fun _ : UInt256 => AccountTx).insert 1 stakedCoin).insert 2 stakeReward).lookup hash = some t at found
  rw [Library.Assoc.lookup_insert_eq, Library.Assoc.lookup_insert_eq, AList.lookup_empty] at found
  rw [outputs]
  split at found
  · rename_i here
    obtain rfl := Option.some.inj found
    subst here
    obtain _ | _ | n := n
    · decide
    · decide
    · cases output
  · split at found
    · rename_i here
      obtain rfl := Option.some.inj found
      subst here
      obtain _ | n := n
      · decide
      · cases output
    · cases found

theorem stakingWallet_accurate (mapAddressBook : AList fun _ : CTxDestination => Bytes) :
    ∀ t ∈ (stakingWallet mapAddressBook).txs, ((stakingWallet mapAddressBook).coins freshRewards).Accurate oneKey t.wtx := by
  rw [stakingWallet_txs]
  intro t member
  obtain rfl | rfl := List.mem_pair.mp member
  · exact .of_none rfl rfl rfl rfl
  · exact .of_none rfl rfl rfl rfl

theorem stakingWallet_trusted (mapAddressBook : AList fun _ : CTxDestination => Bytes) :
    ∀ t ∈ (stakingWallet mapAddressBook).txs,
      (stakingWallet mapAddressBook).isTrusted (Env.labelled true) freshRewards oneKey false 0 t = some true := by
  rw [stakingWallet_txs]
  intro t member
  obtain rfl | rfl := List.mem_pair.mp member
  · rfl
  · rfl

/-- The reward pays to an address of the address book. -/
theorem getbalance_eq_getBalance_iff_labelled :
    let w := stakingWallet ((∅ : AList fun _ : CTxDestination => Bytes).insert (.keyID 7) [])
    w.totalKeptBack oneKey freshRewards = w.spentEarly oneKey freshRewards + w.spentAgain oneKey freshRewards := by
  intro w
  have all : w.getbalanceAll (Env.labelled true) freshRewards oneKey false 0 0 = some 0 := rfl
  have balance : w.getBalance (Env.labelled true) freshRewards oneKey false 0 = some 0 := rfl
  exact (getbalance_eq_getBalance_iff oneKey_empty (stakingWallet_flags _) (stakingWallet_accurate _)
    (stakingWallet_trusted _) all balance).mp rfl

/-- The reward pays to change: one total is 11, the other is 0. -/
theorem staked_change_differs :
    ¬∀ (env : Env) (view : ChainView) (keys : WalletKeys) (w : AccountWallet) (fConfChange : Bool) (fuel : Nat),
      keys.isMine [] = false → w.ExactFlags keys → (∀ t ∈ w.txs, (w.coins view).Accurate keys t.wtx) →
      (∀ t ∈ w.txs, w.isTrusted env view keys fConfChange fuel t = some true) → ∀ nAll nBalance,
      w.getbalanceAll env view keys fConfChange fuel 0 = some nAll →
      w.getBalance env view keys fConfChange fuel = some nBalance → nAll = nBalance := by
  intro claim
  have same := claim (Env.labelled true) freshRewards oneKey (stakingWallet ∅) false 0 oneKey_empty
    (stakingWallet_flags _) (stakingWallet_accurate _) (stakingWallet_trusted _) 11 0 rfl rfl
  cases same

end Concrete

end AccountWallet

end InfiniteRicks
