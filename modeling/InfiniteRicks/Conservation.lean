import InfiniteRicks.ListAccounts
import InfiniteRicks.Ownership
import Mathlib.Algebra.BigOperators.Finprod

/-!
# What the accounts make of a transaction

Over all account names `GetAccountAmounts` hands out what `GetAmounts` lists, each amount to one account. An own
transaction is sent as a whole but for its change, so what the lists leave out is kept; this is right for
what is the wallet's own.
-/

namespace InfiniteRicks

/-! ## Sums over owners -/

section Owners

variable {α β : Type} [DecidableEq β]

theorem sum_owned (owners : Finset β) (owner : α → β) (value : α → Int) (items : List α)
    (inside : ∀ item ∈ items, owner item ∈ owners) :
    (∑ name ∈ owners, ((items.filter fun item => owner item = name).map value).sum) = (items.map value).sum := by
  induction items with
  | nil => exact Finset.sum_const_zero
  | cons item rest ih =>
      obtain ⟨here, others⟩ := List.forall_mem_cons.mp inside
      have each : ∀ name, (((item :: rest).filter fun item => owner item = name).map value).sum =
          (if owner item = name then value item else 0) + ((rest.filter fun item => owner item = name).map value).sum := by
        intro name
        rw [List.filter_cons]
        by_cases own : owner item = name
        · rw [if_pos (decide_eq_true own), if_pos own, List.map_cons, List.sum_cons]
        · rw [if_neg fun same => own (of_decide_eq_true same), if_neg own, zero_add]
      rw [Finset.sum_congr rfl fun name _ => each name, Finset.sum_add_distrib, ih others, List.map_cons, List.sum_cons,
        Finset.sum_ite_eq owners (owner item) fun _ => value item, if_pos here]

/-- Every item counts for its owner. -/
theorem finsum_owned (owner : α → β) (value : α → Int) (items : List α) (payer : β) (paid : Int) :
    (finsum fun name => ((items.filter fun item => owner item = name).map value).sum - if name = payer then paid else 0) =
      (items.map value).sum - paid := by
  rw [finsum_eq_sum_of_support_subset (s := insert payer (items.map owner).toFinset), Finset.sum_sub_distrib,
    sum_owned _ owner value items, Finset.sum_ite_eq', if_pos (Finset.mem_insert_self _ _)]
  · exact fun item member => Finset.mem_insert_of_mem (List.mem_toFinset.mpr (List.mem_map_of_mem member))
  · intro name counts
    by_contra other
    rw [Finset.coe_insert, Set.mem_insert_iff, not_or, Finset.mem_coe, List.mem_toFinset] at other
    refine counts ?_
    show ((items.filter fun item => owner item = name).map value).sum - (if name = payer then paid else 0) = 0
    rw [if_neg other.1, List.filter_eq_nil_iff.mpr]
    · rfl
    · intro item member own
      exact other.2 (List.mem_map.mpr ⟨item, member, of_decide_eq_true own⟩)

end Owners

namespace AccountWallet

variable {keys : WalletKeys} {view : ChainView} {w : AccountWallet} {t : AccountTx} {nDebit nValueOut : Int64}

/-! ## What is listed -/

/-- What an account receives less what it sends and pays. -/
def netOf (amounts : AccountAmounts) : Int := amounts.nReceived.toInt - amounts.nSent.toInt - amounts.nFee.toInt

/-- `GetAmounts` of a transaction whose amounts are in range. -/
theorem getAmounts_eq (debit : ((w.coins view).getDebit keys t.wtx).1 = some nDebit)
    (valueOut : t.wtx.tx.getValueOut = some nValueOut) :
    w.getAmounts view keys t = some
      { listReceived := ((t.wtx.tx.vout.filter (w.isListed view keys nDebit)).filter
          fun txout => keys.isMine txout.scriptPubKey).map (listEntry keys)
        listSent := if 0 < nDebit then (t.wtx.tx.vout.filter (w.isListed view keys nDebit)).map (listEntry keys) else []
        nFee := if 0 < nDebit then nDebit - nValueOut else 0
        strSentAccount := t.strFromAccount } := by
  have fee : feeOf t nDebit = some (if 0 < nDebit then nDebit - nValueOut else 0) := by
    rw [feeOf, valueOut]
    split <;> rfl
  rw [getAmounts, debit, Option.bind_eq_bind, Option.bind_some, fee]
  rfl

theorem mem_range {vout : List CTxOut} {start sum : Int64} (summed : CTransaction.addValueOut start vout = some sum) :
    ∀ txout ∈ vout, 0 ≤ txout.nValue.toInt := by
  induction vout generalizing start with
  | nil => exact List.forall_mem_nil _
  | cons txout rest ih =>
      simp only [CTransaction.addValueOut] at summed
      split at summed
      · cases summed
      · rename_i ranges
        simp only [Bool.or_eq_true, Bool.not_eq_true', not_or, Bool.not_eq_false, moneyRange_iff] at ranges
        exact List.forall_mem_cons.mpr ⟨ranges.1, ih summed⟩

theorem valueOf_le {vout : List CTxOut} (nonneg : ∀ txout ∈ vout, 0 ≤ txout.nValue.toInt) (counts : CTxOut → Bool) :
    0 ≤ valueOf counts vout ∧ valueOf counts vout ≤ outputsValue vout := by
  induction vout with
  | nil => exact ⟨le_rfl, le_rfl⟩
  | cons txout rest ih =>
      obtain ⟨here, others⟩ := List.forall_mem_cons.mp nonneg
      obtain ⟨low, high⟩ := ih others
      have value : outputsValue (txout :: rest) = txout.nValue.toInt + outputsValue rest := by
        rw [outputsValue, List.map_cons, List.sum_cons, outputsValue]
      rw [valueOf_cons, value]
      split <;> constructor <;> omega

/-- The 64-bit sum of the values of some outputs of a transaction whose amounts are in range. -/
theorem sum_exact (valueOut : t.wtx.tx.getValueOut = some nValueOut) (counts : CTxOut → Bool) :
    (((t.wtx.tx.vout.filter counts).map (listEntry keys)).map Prod.snd).sum.toInt = valueOf counts t.wtx.tx.vout := by
  obtain ⟨value, -⟩ := CTransaction.addValueOut_exact (by decide) valueOut
  have zero : (0 : Int64).toInt = 0 := rfl
  have bounds := valueOf_le (mem_range valueOut) counts
  have most := nValueOut.toInt_lt
  have total : ((((t.wtx.tx.vout.filter counts).map (listEntry keys)).map Prod.snd).map Int64.toInt).sum =
      valueOf counts t.wtx.tx.vout := by
    rw [List.map_map, List.map_map]
    rfl
  rw [sum_toInt, total]
  exact Fits.toInt ⟨by omega, by omega⟩

/-- What is sent and paid is the debit, but for what the lists leave out. -/
theorem sent_exact (nonneg : 0 ≤ nDebit) (valueOut : t.wtx.tx.getValueOut = some nValueOut) :
    ((if 0 < nDebit then (t.wtx.tx.vout.filter (w.isListed view keys nDebit)).map (listEntry keys) else []).map
        Prod.snd).sum.toInt + (if 0 < nDebit then nDebit - nValueOut else 0).toInt =
      nDebit.toInt - if 0 < nDebit then valueOf (fun txout => !w.isListed view keys nDebit txout) t.wtx.tx.vout else 0 := by
  have low := Int64.le_iff_toInt_le.mp nonneg
  have zero : (0 : Int64).toInt = 0 := rfl
  obtain ⟨value, valueNonneg⟩ := CTransaction.addValueOut_exact (by decide) valueOut
  have parts := valueOf_add_not (w.isListed view keys nDebit) t.wtx.tx.vout
  by_cases own : 0 < nDebit
  · rw [if_pos own, if_pos own, if_pos own, sum_exact valueOut, toInt_sub_of_nonneg low valueNonneg]
    omega
  · have none : nDebit.toInt = 0 := by
      have most := mt Int64.lt_iff_toInt_lt.mpr own
      omega
    rw [if_neg own, if_neg own, if_neg own, none]
    rfl

/-- What `GetAccountAmounts` nets for a name: what is received for it, less the debit but for what the lists leave out. -/
theorem getAccountAmounts_net (debit : ((w.coins view).getDebit keys t.wtx).1 = some nDebit) (nonneg : 0 ≤ nDebit)
    (valueOut : t.wtx.tx.getValueOut = some nValueOut) (strAccount : Bytes) :
    ∃ amounts, w.getAccountAmounts view keys t strAccount = some amounts ∧
      netOf amounts =
        ((((t.wtx.tx.vout.filter (w.isListed view keys nDebit)).filter fun txout => keys.isMine txout.scriptPubKey).filter
          fun txout => w.receivingAccount (listEntry keys txout) = strAccount).map fun txout => txout.nValue.toInt).sum -
        if strAccount = t.strFromAccount then
          nDebit.toInt - (if 0 < nDebit then valueOf (fun txout => !w.isListed view keys nDebit txout) t.wtx.tx.vout else 0)
        else 0 := by
  refine ⟨_, by rw [getAccountAmounts, getAmounts_eq debit valueOut, Option.map_some], ?_⟩
  refine (Int.sub_sub _ _ _).trans (congrArg₂ (· - ·) ?_ ?_)
  · have owner : w.isReceivedBy strAccount = fun r => decide (w.receivingAccount r = strAccount) := funext isReceivedBy_eq
    dsimp only
    rw [owner, List.filter_map, List.filter_filter, List.filter_filter, List.filter_filter, List.filter_filter]
    exact sum_exact valueOut _
  · by_cases own : strAccount = t.strFromAccount
    · dsimp only
      rw [if_pos own, if_pos own, if_pos own]
      exact sent_exact nonneg valueOut
    · dsimp only
      rw [if_neg own, if_neg own, if_neg own]
      rfl

/-! ## The sum over all accounts -/

/-- What an own transaction keeps from the accounts though it is not the wallet's: an output without a script, or one
that pays to a redeem script which is known but not the wallet's, at an address that is not in the address book. -/
def KeptFromAccounts (store : OwnerStore) (keys : WalletKeys) (w : AccountWallet) (txout : CTxOut) : Prop :=
  txout.scriptPubKey = [] ∨
    ∃ scriptID subscript, store.extractDestination txout.scriptPubKey = some (.scriptID scriptID) ∧
      store.getCScript scriptID = some subscript ∧ keys.isMine subscript = false ∧
      w.mapAddressBook.lookup (.scriptID scriptID) = none

theorem keptFromAccounts_iff {store : OwnerStore} (describes : store.Describes keys) (txout : CTxOut) :
    (txout.scriptPubKey.isEmpty || (w.coins view).isChange keys txout) = true ∧ keys.isMine txout.scriptPubKey = false ↔
      KeptFromAccounts store keys w txout := by
  rw [Bool.or_eq_true, List.isEmpty_iff, or_and_right, KeptFromAccounts]
  refine or_congr (and_iff_left_of_imp fun empty => empty ▸ describes.isMine_empty) ?_
  rw [WalletCoins.isChange, describes.extractDestination, describes.isMineDestination]
  cases found : store.extractDestination txout.scriptPubKey with
  | none =>
      constructor
      · rintro ⟨wrong, -⟩
        cases wrong
      · rintro ⟨scriptID, subscript, wrong, -⟩
        cases wrong
  | some address =>
      have book : (w.coins view).mapAddressBook address = (w.mapAddressBook.lookup address).isSome := rfl
      have known := describes.known_not_mine_iff found
      simp only [book, Bool.and_eq_true, Bool.not_eq_true', Option.isSome_eq_false_iff, Option.isNone_iff_eq_none]
      constructor
      · rintro ⟨⟨own, absent⟩, foreign⟩
        obtain ⟨scriptID, subscript, rfl, there, lacks⟩ := known.mp ⟨own, foreign⟩
        exact ⟨scriptID, subscript, rfl, there, lacks, absent⟩
      · rintro ⟨scriptID, subscript, same, there, lacks, absent⟩
        obtain rfl := Option.some.inj same
        obtain ⟨own, foreign⟩ := known.mpr ⟨scriptID, subscript, rfl, there, lacks⟩
        exact ⟨⟨own, absent⟩, foreign⟩

/-- What is hidden counts where it is not own. -/
theorem valueOf_hidden (hidden own : CTxOut → Bool) (vout : List CTxOut) :
    valueOf (fun txout => own txout && !hidden txout) vout + valueOf hidden vout =
      valueOf own vout + valueOf (fun txout => hidden txout && !own txout) vout := by
  induction vout with
  | nil => rfl
  | cons txout rest ih =>
      rw [valueOf_cons, valueOf_cons, valueOf_cons, valueOf_cons]
      cases hidden txout <;> cases own txout <;>
        simp only [Bool.not_true, Bool.not_false, Bool.and_true, Bool.and_false, Bool.false_eq_true, if_true, if_false] <;>
        omega

theorem valueOf_eq_zero_iff {vout : List CTxOut} (nonneg : ∀ txout ∈ vout, 0 ≤ txout.nValue.toInt)
    (counts : CTxOut → Bool) : valueOf counts vout = 0 ↔ ∀ txout ∈ vout, counts txout = true → txout.nValue = 0 := by
  have zero : ∀ txout : CTxOut, txout.nValue = 0 ↔ txout.nValue.toInt = 0 := fun txout => Int64.toInt_inj.symm
  induction vout with
  | nil => exact ⟨fun _ => List.forall_mem_nil _, fun _ => rfl⟩
  | cons txout rest ih =>
      obtain ⟨here, others⟩ := List.forall_mem_cons.mp nonneg
      have low := (valueOf_le others counts).1
      rw [valueOf_cons, List.forall_mem_cons, zero]
      refine Iff.trans ?_ (and_congr_right fun _ => ih others)
      cases counts txout with
      | false => simp
      | true =>
          simp only [if_true, true_implies]
          omega

/-- Over all account names the amounts add up to what is the wallet's own less the debit, just where the transaction has
no debit or keeps nothing from the accounts. -/
theorem getAccountAmounts_conserve_iff {store : OwnerStore} (describes : store.Describes keys)
    (debit : ((w.coins view).getDebit keys t.wtx).1 = some nDebit) (nonneg : 0 ≤ nDebit)
    (valueOut : t.wtx.tx.getValueOut = some nValueOut) :
    ∃ amounts : Bytes → AccountAmounts,
      (∀ strAccount, w.getAccountAmounts view keys t strAccount = some (amounts strAccount)) ∧
      ((finsum fun strAccount => netOf (amounts strAccount)) =
          valueOf (fun txout => keys.isMine txout.scriptPubKey) t.wtx.tx.vout - nDebit.toInt ↔
        nDebit = 0 ∨ ∀ txout ∈ t.wtx.tx.vout, KeptFromAccounts store keys w txout → txout.nValue = 0) := by
  choose amounts returned net using fun strAccount =>
    @getAccountAmounts_net keys view w t nDebit nValueOut debit nonneg valueOut strAccount
  refine ⟨amounts, returned, ?_⟩
  rw [finsum_congr net, finsum_owned fun txout => w.receivingAccount (listEntry keys txout), List.filter_filter]
  have sum : (((t.wtx.tx.vout.filter fun txout => keys.isMine txout.scriptPubKey && w.isListed view keys nDebit txout)).map
      fun txout => txout.nValue.toInt).sum =
    valueOf (fun txout => keys.isMine txout.scriptPubKey && w.isListed view keys nDebit txout) t.wtx.tx.vout := rfl
  rw [sum]
  by_cases own : 0 < nDebit
  · have hides : w.isListed view keys nDebit =
        fun txout => !(txout.scriptPubKey.isEmpty || (w.coins view).isChange keys txout) := by
      funext txout
      rw [isListed, if_pos own, Bool.not_or]
    have parts := valueOf_hidden (fun txout => txout.scriptPubKey.isEmpty || (w.coins view).isChange keys txout)
      (fun txout => keys.isMine txout.scriptPubKey) t.wtx.tx.vout
    have kept := valueOf_eq_zero_iff (mem_range valueOut) fun txout =>
      (txout.scriptPubKey.isEmpty || (w.coins view).isChange keys txout) && !keys.isMine txout.scriptPubKey
    have positive : nDebit ≠ 0 := fun zero => by
      rw [zero] at own
      exact absurd own (by decide)
    simp only [Bool.and_eq_true, Bool.not_eq_true', keptFromAccounts_iff describes] at kept
    rw [if_pos own, or_iff_right positive, ← kept]
    simp only [hides, Bool.not_not]
    omega
  · have none : nDebit = 0 := Int64.le_antisymm (Int64.not_lt.mp own) nonneg
    have listed : (fun txout : CTxOut => keys.isMine txout.scriptPubKey && w.isListed view keys nDebit txout) =
        fun txout => keys.isMine txout.scriptPubKey := by
      funext txout
      rw [isListed, if_neg own]
      cases mine : keys.isMine txout.scriptPubKey with
      | false => rfl
      | true =>
          have script : txout.scriptPubKey.isEmpty = false := Bool.eq_false_iff.mpr fun missing => by
            rw [List.isEmpty_iff.mp missing, describes.isMine_empty] at mine
            cases mine
          rw [script]
          rfl
    rw [if_neg own, listed, Int.sub_zero]
    exact iff_of_true rfl (.inl none)

section Concrete

/-- A key store with one key, and a redeem script that pays to another key. -/
def oneScript : OwnerStore where
  hash160 _ := 0
  haveKey keyID := decide (keyID = 7)
  getCScript scriptID := if scriptID = 3 then some (CScript.payToKeyID 9) else none

theorem oneScript_describes : oneScript.Describes (oneScript.walletKeys 2 0) := by
  refine OwnerStore.describes_walletKeys (OwnerStore.isMine_flat fun scriptID subscript known => ?_) 0
  change (if scriptID = 3 then some (CScript.payToKeyID 9) else none) = some subscript at known
  split_ifs at known
  obtain rfl := Option.some.inj known
  decide

/-- A transaction that spends the coin of 10 of the wallet and pays it to a script. -/
def spending (scriptPubKey : CScript) : AccountTx where
  wtx := .ofTx ⟨1, 0, [⟨⟨1, 0⟩, [], 0xffffffff⟩], [⟨10, scriptPubKey⟩], 0⟩
  vtxPrev := []
  strFromAccount := []

theorem spending_debit (scriptPubKey : CScript) : (((stakingWallet ∅).coins freshRewards).getDebit (oneScript.walletKeys 2 0)
    (spending scriptPubKey).wtx).1 = some 10 := by
  rfl

/-- Paid to change of the wallet, the accounts lose nothing. -/
theorem getAccountAmounts_change : ∃ amounts : Bytes → AccountAmounts,
    (∀ strAccount, (stakingWallet ∅).getAccountAmounts freshRewards (oneScript.walletKeys 2 0)
      (spending (CScript.payToKeyID 7)) strAccount = some (amounts strAccount)) ∧
    (finsum fun strAccount => netOf (amounts strAccount)) =
      valueOf (fun txout => (oneScript.walletKeys 2 0).isMine txout.scriptPubKey)
        (spending (CScript.payToKeyID 7)).wtx.tx.vout - (10 : Int64).toInt := by
  obtain ⟨amounts, returned, exact_⟩ := getAccountAmounts_conserve_iff (w := stakingWallet ∅) oneScript_describes
    (spending_debit (CScript.payToKeyID 7)) (by decide) rfl
  refine ⟨amounts, returned, exact_.mpr (.inr fun txout member kept => ?_)⟩
  obtain rfl := List.mem_singleton.mp member
  rcases kept with empty | ⟨scriptID, subscript, found, -⟩
  · cases empty
  · have address : oneScript.extractDestination (CScript.payToKeyID 7) = some (.keyID 7) := rfl
    rw [address] at found
    cases found

/-- A payment to the redeem script. -/
def payToRedeemScript : CScript := 0xa9 :: CScript.pushData (littleEndianBytes 20 3) ++ [0x87]

/-- Paid to a redeem script that is known and not the wallet's: no account loses the 10 that the wallet loses. -/
theorem redeemScript_payment_vanishes :
    ¬∀ (store : OwnerStore) (keys : WalletKeys) (view : ChainView) (w : AccountWallet) (t : AccountTx)
      (nDebit nValueOut : Int64), store.Describes keys → ((w.coins view).getDebit keys t.wtx).1 = some nDebit →
      0 ≤ nDebit → t.wtx.tx.getValueOut = some nValueOut → ∀ amounts : Bytes → AccountAmounts,
      (∀ strAccount, w.getAccountAmounts view keys t strAccount = some (amounts strAccount)) →
      (finsum fun strAccount => netOf (amounts strAccount)) =
        valueOf (fun txout => keys.isMine txout.scriptPubKey) t.wtx.tx.vout - nDebit.toInt := by
  intro claim
  have listed : (stakingWallet ∅).getAmounts freshRewards (oneScript.walletKeys 2 0) (spending payToRedeemScript) =
      some ⟨[], [], 0, []⟩ := rfl
  have returned : ∀ strAccount, (stakingWallet ∅).getAccountAmounts freshRewards (oneScript.walletKeys 2 0)
      (spending payToRedeemScript) strAccount = some ⟨0, 0, 0⟩ := by
    intro strAccount
    rw [getAccountAmounts, listed, Option.map_some]
    by_cases own : strAccount = [] <;> simp [own]
  have same := claim oneScript (oneScript.walletKeys 2 0) freshRewards (stakingWallet ∅) (spending payToRedeemScript) 10 10
    oneScript_describes (spending_debit payToRedeemScript) (by decide) rfl _ returned
  have nothing : (finsum fun _ : Bytes => netOf ⟨0, 0, 0⟩) = 0 := finsum_zero
  rw [nothing] at same
  exact absurd same (by decide)

end Concrete

end AccountWallet

end InfiniteRicks
