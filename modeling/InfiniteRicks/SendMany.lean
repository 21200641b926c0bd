import InfiniteRicks.Base58
import InfiniteRicks.BestChain
import InfiniteRicks.CreateTransactionSpec
import InfiniteRicks.Library.CheckedSum

/-!
# Paying many from an account

`sendmany` (`rpcwallet.cpp`). Its check of the funds compares a total that may have wrapped with a
balance of 128 bits. A payment whose total wrapped is then refused by `CreateTransaction`, so what is
committed is covered by the account (`sendmany_within_balance`). The numbers of a request are doubles,
and what they are rounded to is a parameter.
-/

namespace InfiniteRicks

/-- What `JSONRPCError` makes. -/
structure JSONRPCError where
  code : Int
  message : Bytes

/-- `RPC_TYPE_ERROR` and the codes that `sendmany` uses. -/
def rpcTypeError : Int := -3
def rpcWalletError : Int := -4
def rpcInvalidAddressOrKey : Int := -5
def rpcWalletInsufficientFunds : Int := -6
def rpcInvalidParameter : Int := -8
def rpcWalletInvalidAccountName : Int := -11
def rpcWalletUnlockNeeded : Int := -13

/-- What `CommitTransaction` leaves in `sendmany`: the coins of the wallet, and the node with the transaction in its
pool. -/
inductive CommitResult where
  | thrown (coins : WalletCoins)
  | failed (coins : WalletCoins) (e : JSONRPCError)
  | done (coins : WalletCoins) (node : Node)

/-- How `sendmany` ends. Up to `CommitTransaction` nothing is stored. -/
inductive SendResult where
  | error (e : JSONRPCError)
  /-- An exception of another kind, or a failed assertion. -/
  | thrown
  | unfinished
  | committed (wtxNew : CTransaction) (result : CommitResult)

/-- What a call of `sendmany` takes from elsewhere. -/
structure SendEnv where
  /-- The numbers of JSON. -/
  Value : Type
  /-- `roundint64(dAmount * COIN)`, where the double is positive and at most `MAX_MONEY`. -/
  toUnits : Value → Option Int64
  hash : Bytes → UInt256
  fTestNet : Bool
  policy : Policy
  isLocked : Bool
  fWalletUnlockStakingOnly : Bool
  /-- `GetAdjustedTime`. -/
  nTime : UInt32
  choices : Nat → PassChoices
  passes : Nat
  /-- What a `CreateTransaction` that returns false leaves in `nFeeRequired`. -/
  nFeeRequired : Int64
  poolKeys : List (BitVec 160)

namespace SendEnv

variable (rpc : SendEnv)

/-- `AccountFromValue`. -/
def accountFromValue (strAccount : Bytes) : Except JSONRPCError Bytes :=
  if strAccount = [42] then .error ⟨rpcWalletInvalidAccountName, text "Invalid account name".toList⟩ else .ok strAccount

/-- `AmountFromValue`. -/
def amountFromValue (value : rpc.Value) : Except JSONRPCError Int64 :=
  match rpc.toUnits value with
  | none => .error ⟨rpcTypeError, text "Invalid amount".toList⟩
  | some nAmount =>
      if !moneyRange nAmount then .error ⟨rpcTypeError, text "Invalid amount".toList⟩ else .ok nAmount

/-- `EnsureWalletIsUnlocked`. -/
def ensureWalletIsUnlocked : Except JSONRPCError Unit :=
  if rpc.isLocked then
    .error ⟨rpcWalletUnlockNeeded,
      text "Error: Please enter the wallet passphrase with walletpassphrase first.".toList⟩
  else if rpc.fWalletUnlockStakingOnly then
    .error ⟨rpcWalletUnlockNeeded, text "Error: Wallet is unlocked for staking only.".toList⟩
  else .ok ()

/-- The loop over `sendTo`, from the addresses, the total and the outputs so far. -/
def readRecipients : List (Bytes × rpc.Value) → List CBase58Data → Int64 → List (CScript × Int64) →
    Except JSONRPCError (Int64 × List (CScript × Int64))
  | [], _, totalAmount, vecSend => .ok (totalAmount, vecSend)
  | s :: rest, setAddress, totalAmount, vecSend =>
      let address := (CBase58Data.setString rpc.hash s.1).2
      if !CBitcoinAddress.isValid rpc.fTestNet address then
        .error ⟨rpcInvalidAddressOrKey, text "Invalid InfiniteRicks address: ".toList ++ s.1⟩
      else if address ∈ setAddress then
        .error ⟨rpcInvalidParameter, text "Invalid parameter, duplicated address: ".toList ++ s.1⟩
      else
        match rpc.amountFromValue s.2 with
        | .error e => .error e
        | .ok nAmount =>
            readRecipients rest (address :: setAddress) (totalAmount + nAmount)
              (vecSend ++ [(CScript.setDestination (CBitcoinAddress.get rpc.fTestNet address), nAmount)])

/-- `CommitTransaction`, and what `sendmany` makes of it. -/
def commit (p : Payer) (s : Node) (wtxNew : CTransaction) : CommitResult :=
  match (p.wallet.coins p.view).commitTransaction p.env p.keys rpc.poolKeys (CWalletTx.ofTx wtxNew) with
  | .error coins => .thrown coins
  | .ok coins =>
      match acceptToMemoryPool p.env rpc.policy s wtxNew with
      | none => .failed coins ⟨rpcWalletError, text "Transaction commit failed".toList⟩
      | some node => .done coins node

/-- `sendmany` behind the check of the funds. -/
def send (p : Payer) (s : Node) (totalAmount : Int64) (vecSend : List (CScript × Int64)) : SendResult :=
  match p.createTransaction rpc.choices vecSend (CTransaction.mk 1 rpc.nTime [] [] 0) none rpc.passes with
  | .thrown => .thrown
  | .unfinished => .unfinished
  | .created wtxNew _ => .committed wtxNew (rpc.commit p s wtxNew)
  | .refused =>
      match p.wallet.getBalance p.env p.view p.keys p.fConfChange p.fuel with
      | none => .thrown
      | some nBalance =>
          if nBalance < (totalAmount + rpc.nFeeRequired).toInt then
            .error ⟨rpcWalletInsufficientFunds, text "Insufficient funds".toList⟩
          else .error ⟨rpcWalletError, text "Transaction creation failed".toList⟩

/-- `sendmany`. -/
def sendmany (p : Payer) (s : Node) (strAccount : Bytes) (sendTo : List (Bytes × rpc.Value)) (nMinDepth : Int32) :
    SendResult :=
  match accountFromValue strAccount with
  | .error e => .error e
  | .ok strAccount =>
      match rpc.readRecipients sendTo [] 0 [] with
      | .error e => .error e
      | .ok (totalAmount, vecSend) =>
          match rpc.ensureWalletIsUnlocked with
          | .error e => .error e
          | .ok () =>
              match p.wallet.getAccountBalance p.view p.keys strAccount nMinDepth.toInt with
              | none => .thrown
              | some nBalance =>
                  if nBalance < totalAmount.toInt then
                    .error ⟨rpcWalletInsufficientFunds, text "Account has insufficient funds".toList⟩
                  else rpc.send p s totalAmount vecSend

end SendEnv

namespace Payer

variable {p : Payer} {c : PassChoices} {choices : Nat → PassChoices} {vecSend : List (CScript × Int64)}
  {nValue nFeeRet fee : Int64} {wtxNew tx : CTransaction} {coinControl : Option CCoinControl}

/-- With the change or without it, the outputs asked for are among those made. -/
theorem addChange_sublist {nChange : Int64} {vout made : List CTxOut}
    (changed : addChange c coinControl nChange vout = some made) : vout.Sublist made := by
  unfold addChange at changed
  split at changed
  · obtain ⟨script, -, rfl⟩ := Option.map_eq_some_iff.mp changed
    exact List.sublist_insertIdx _ _ _
  · cases changed
    exact List.Sublist.refl _

/-- A payment that is made has the outputs asked for, in their order. -/
theorem createLoop_outputs {passes nPass : Nat}
    (created : p.createLoop choices vecSend nValue wtxNew coinControl passes nPass nFeeRet = .created tx fee) :
    (sentOutputs vecSend).Sublist tx.vout := by
  induction passes generalizing nPass nFeeRet with
  | zero => cases created
  | succ passes ih =>
      rw [createLoop] at created
      split at created
      · cases created
      · cases created
      · exact ih created
      · rename_i pass
        cases created
        rcases createPass_cases pass with thrown | refused | ⟨setCoins, nValueIn, vout, made, -, changed, signed, -,
          ended⟩
        · cases thrown
        · cases refused
        · split at ended
          · cases ended
          · cases ended
            rw [(signInputs_rest signed).1]
            exact addChange_sublist changed

/-- What `CreateTransaction` pays is the exact sum of the amounts, which fits in an `int64_t`, and the sum that
wraps. -/
theorem createTransaction_total {passes : Nat} (nonneg : ∀ s ∈ vecSend, 0 ≤ s.2)
    (created : p.createTransaction choices vecSend wtxNew coinControl passes = .created tx fee) :
    ((vecSend.map Prod.snd).foldl (· + ·) 0).toInt = Library.CheckedSum.exactSum (vecSend.map Prod.snd) ∧
      (sentOutputs vecSend).Sublist tx.vout := by
  unfold createTransaction at created
  split at created
  · cases created
  rename_i nValue summed
  split at created
  · cases created
  rename_i guards
  refine ⟨?_, createLoop_outputs created⟩
  simp only [Bool.or_eq_true, decide_eq_true_eq, not_or, Int64.lt_iff_toInt_lt] at guards
  obtain ⟨-, exact⟩ := sumSend_exact (fun s member => Int64.le_iff_toInt_le.mp (nonneg s member)) summed
    (Int.not_lt.mp guards.2)
  have sums : Library.CheckedSum.exactSum (vecSend.map Prod.snd) = (vecSend.map fun s => s.2.toInt).sum := by
    rw [Library.CheckedSum.exactSum, List.map_map]
    rfl
  have checked : Library.CheckedSum.checkedSum 0 (vecSend.map Prod.snd) = some nValue := by
    refine (Library.CheckedSum.checkedSum_eq_some (by decide)).mpr ⟨fun amount member => ?_, by rw [sums, exact]⟩
    obtain ⟨s, listed, rfl⟩ := List.mem_map.mp member
    exact nonneg s listed
  rw [← Library.CheckedSum.eq_foldl_of_checkedSum checked, sums, exact, Int64.toInt_zero, Int.zero_add]

end Payer

namespace SendEnv

variable {rpc : SendEnv} {p : Payer} {s : Node}

theorem moneyRange_of_amountFromValue {value : rpc.Value} {nAmount : Int64} (read : rpc.amountFromValue value =
    .ok nAmount) :
    moneyRange nAmount = true := by
  unfold amountFromValue at read
  split at read
  · cases read
  split at read
  · cases read
  · rename_i inRange
    cases read
    simpa using inRange

/-- The loop keeps each amount, and adds them up with wrapping. -/
theorem readRecipients_spec {sendTo : List (Bytes × rpc.Value)} {setAddress : List CBase58Data}
    {totalAmount total : Int64}
    {vecSend sent : List (CScript × Int64)}
    (read : rpc.readRecipients sendTo setAddress totalAmount vecSend = .ok (total, sent)) :
    ∃ amounts : List Int64, List.Forall₂ (fun s nAmount => rpc.amountFromValue s.2 = .ok nAmount) sendTo amounts ∧
      (∀ nAmount ∈ amounts, moneyRange nAmount = true) ∧ sent.map Prod.snd = vecSend.map Prod.snd ++ amounts ∧
      total = amounts.foldl (· + ·) totalAmount := by
  induction sendTo generalizing setAddress totalAmount vecSend with
  | nil =>
      cases read
      exact ⟨[], .nil, fun nAmount member => absurd member List.not_mem_nil, (List.append_nil _).symm, rfl⟩
  | cons recipient rest ih =>
      rw [readRecipients] at read
      split at read
      · cases read
      split at read
      · cases read
      split at read
      · cases read
      · rename_i nAmount amount
        obtain ⟨amounts, each, inRange, outputs, sum⟩ := ih read
        refine ⟨nAmount :: amounts, .cons amount each,
          List.forall_mem_cons.mpr ⟨moneyRange_of_amountFromValue amount, inRange⟩, ?_, sum⟩
        rw [outputs, List.map_append, List.append_assoc]
        rfl

/-- A request that reaches `CommitTransaction` had its recipients read and its funds checked, and its
transaction made. -/
theorem sendmany_committed {strAccount : Bytes} {sendTo : List (Bytes × rpc.Value)} {nMinDepth : Int32}
    {wtxNew : CTransaction} {result : CommitResult}
    (committed : rpc.sendmany p s strAccount sendTo nMinDepth = .committed wtxNew result) :
    ∃ totalAmount vecSend nBalance nFeeRet, rpc.readRecipients sendTo [] 0 [] = .ok (totalAmount, vecSend) ∧
      p.wallet.getAccountBalance p.view p.keys strAccount nMinDepth.toInt = some nBalance ∧
      totalAmount.toInt ≤ nBalance ∧
      p.createTransaction rpc.choices vecSend (CTransaction.mk 1 rpc.nTime [] [] 0) none rpc.passes =
        .created wtxNew nFeeRet := by
  unfold sendmany at committed
  split at committed
  · cases committed
  rename_i account named
  have same : account = strAccount := by
    unfold accountFromValue at named
    split at named
    · cases named
    · exact (Except.ok.inj named).symm
  subst same
  split at committed
  · cases committed
  rename_i totalAmount vecSend read
  split at committed
  · cases committed
  split at committed
  · cases committed
  rename_i nBalance balance
  split at committed
  · cases committed
  rename_i funds
  unfold send at committed
  split at committed
  · cases committed
  · cases committed
  · rename_i made nFeeRet created
    cases committed
    exact ⟨totalAmount, vecSend, nBalance, nFeeRet, read, balance, Int.not_lt.mp funds, created⟩
  · split at committed
    · cases committed
    · split at committed
      · cases committed
      · cases committed

/-- A transaction that `sendmany` commits pays every recipient the amount of the request, and the exact sum of
these amounts is at most the balance of the account. -/
theorem sendmany_within_balance (rpc : SendEnv) (p : Payer) (s : Node) (strAccount : Bytes)
    (sendTo : List (Bytes × rpc.Value)) (nMinDepth : Int32) (wtxNew : CTransaction) (result : CommitResult)
    (committed : rpc.sendmany p s strAccount sendTo nMinDepth = .committed wtxNew result) :
    ∃ (amounts : List Int64) (nBalance : Int),
      List.Forall₂ (fun s nAmount => rpc.amountFromValue s.2 = .ok nAmount) sendTo amounts ∧
      amounts.Sublist (wtxNew.vout.map CTxOut.nValue) ∧
      p.wallet.getAccountBalance p.view p.keys strAccount nMinDepth.toInt = some nBalance ∧
      (amounts.map Int64.toInt).sum ≤ nBalance := by
  obtain ⟨totalAmount, vecSend, nBalance, nFeeRet, read, balance, funds, created⟩ := sendmany_committed committed
  obtain ⟨amounts, each, inRange, outputs, sum⟩ := readRecipients_spec read
  rw [List.map_nil, List.nil_append] at outputs
  have nonneg : ∀ s ∈ vecSend, 0 ≤ s.2 := by
    intro s member
    have listed : s.2 ∈ amounts := outputs ▸ List.mem_map_of_mem member
    exact Int64.le_iff_toInt_le.mpr (moneyRange_iff.mp (inRange _ listed))
  obtain ⟨total, made⟩ := Payer.createTransaction_total nonneg created
  rw [outputs, ← sum] at total
  refine ⟨amounts, nBalance, each, ?_, balance, ?_⟩
  · have values := made.map CTxOut.nValue
    rw [Payer.sentOutputs, List.map_map] at values
    exact outputs ▸ values
  · rw [← Library.CheckedSum.exactSum, ← total]
    exact funds

section Concrete

/-- A wallet that is unlocked, with numbers that are amounts already. -/
def plainSend : SendEnv where
  Value := Int64
  toUnits := some
  hash _ := 0
  fTestNet := false
  policy := ⟨fun _ => true, fun _ _ => true, fun _ => false⟩
  isLocked := false
  fWalletUnlockStakingOnly := false
  nTime := 1000
  choices _ := plainChoices
  passes := 101
  nFeeRequired := 0
  poolKeys := []

/-- The text of an address. -/
def sampleAddress : Bytes := (CBitcoinAddress.set false .new (.keyID 7)).2.toText fun _ => 0

/-- A node that has not started. -/
def idleNode : Node := .initial ⟨fun _ => none, fun _ _ => none⟩ (fun _ => true) 0

def isCommitted : SendResult → Bool
  | .committed _ _ => true
  | _ => false

theorem exists_of_isCommitted {result : SendResult} (sent : isCommitted result = true) :
    ∃ wtxNew commit, result = .committed wtxNew commit := by
  cases result with
  | committed wtxNew commit => exact ⟨wtxNew, commit, rfl⟩
  | _ => cases sent

/-- One coin of the two in the default account. -/
theorem sendmany_within_balance_sample :
    ∃ wtxNew result,
      plainSend.sendmany (payerWith [savedCoins]) idleNode [] [(sampleAddress, coin)] 1 = .committed wtxNew result ∧
      ∃ (amounts : List Int64) (nBalance : Int),
        List.Forall₂ (fun s nAmount => plainSend.amountFromValue s.2 = .ok nAmount) [(sampleAddress, coin)] amounts ∧
        amounts.Sublist (wtxNew.vout.map CTxOut.nValue) ∧
        (payerWith [savedCoins]).wallet.getAccountBalance (payerWith [savedCoins]).view (payerWith [savedCoins]).keys []
          (Int32.toInt 1) = some nBalance ∧
        (amounts.map Int64.toInt).sum ≤ nBalance := by
  have sent : isCommitted (plainSend.sendmany (payerWith [savedCoins]) idleNode [] [(sampleAddress, coin)] 1) =
    true := by
    decide +kernel
  obtain ⟨wtxNew, result, committed⟩ := exists_of_isCommitted sent
  exact ⟨wtxNew, result, committed, sendmany_within_balance _ _ _ _ _ _ _ _ committed⟩

end Concrete

end SendEnv

end InfiniteRicks
