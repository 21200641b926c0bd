import InfiniteRicks.Value
import InfiniteRicks.WalletCoins

/-!
# Spent flags

`Marked` says that a spent coin of the wallet is marked spent. Flags are only added,
except for the own outputs of a transaction that is added with its block, and a
transaction starts with its own flags when it comes after its spender.
-/

namespace InfiniteRicks

namespace CWalletTx

theorem getD_addSpent (old new : List Bool) (n : Nat) :
    (addSpent old new).getD n false = (old.getD n false || (decide (n < old.length) && new.getD n false)) := by
  induction old generalizing new n with
  | nil => simp [addSpent]
  | cons spent old ih =>
      cases new with
      | nil => simp [addSpent]
      | cons newSpent new =>
          cases n with
          | zero => simp [addSpent]
          | succ n => simpa [addSpent] using ih new n

theorem length_resizeSpent (wtx : CWalletTx) : wtx.resizeSpent.length = wtx.tx.vout.length := by
  unfold resizeSpent
  rw [List.length_take, List.length_append, List.length_replicate]
  omega

theorem getD_resizeSpent (wtx : CWalletTx) {n : Nat} (there : n < wtx.tx.vout.length) :
    wtx.resizeSpent.getD n false = wtx.isSpent n := by
  unfold resizeSpent isSpent
  rw [List.getD_eq_getElem?_getD, List.getD_eq_getElem?_getD, List.getElem?_take_of_lt there]
  by_cases inside : n < wtx.vfSpent.length
  · rw [List.getElem?_append_left inside]
  · rw [List.getElem?_append_right (Nat.le_of_not_lt inside), List.getElem?_eq_none (Nat.le_of_not_lt inside),
      List.getElem?_replicate]
    split <;> rfl

/-- `MarkSpent` and `MarkUnspent` change one flag. -/
theorem setSpent_spec {wtx : CWalletTx} {n : Nat} (there : n < wtx.tx.vout.length) (fSpent : Bool) :
    ∃ after, wtx.setSpent n fSpent = some after ∧ after.tx = wtx.tx ∧
      ∀ m < wtx.tx.vout.length, after.isSpent m = if m = n then fSpent else wtx.isSpent m := by
  unfold setSpent
  rw [if_neg (Nat.not_le_of_lt there)]
  split
  · rename_i same
    refine ⟨_, rfl, rfl, fun m inside => ?_⟩
    change wtx.resizeSpent.getD m false = _
    split
    · rename_i here
      rw [here, same]
    · exact getD_resizeSpent wtx inside
  · refine ⟨_, rfl, rfl, fun m inside => ?_⟩
    change (wtx.resizeSpent.set n fSpent).getD m false = _
    rw [List.getD_eq_getElem?_getD, List.getElem?_set]
    by_cases here : n = m
    · subst here
      rw [if_pos rfl, if_pos (by rwa [length_resizeSpent]), if_pos rfl, Option.getD_some]
    · rw [if_neg here, if_neg (Ne.symm here), ← List.getD_eq_getElem?_getD]
      exact getD_resizeSpent wtx inside

/-- A merge keeps the transaction and its spent flags. -/
theorem merge_spec (wtx wtxIn : CWalletTx) :
    (wtx.merge wtxIn).tx = wtx.tx ∧ ∀ n, wtx.isSpent n = true → (wtx.merge wtxIn).isSpent n = true := by
  have flags : (wtx.merge wtxIn).tx = wtx.tx ∧ (wtx.merge wtxIn).vfSpent = addSpent wtx.vfSpent wtxIn.vfSpent := by
    unfold merge
    dsimp only
    split <;> split <;> split <;> exact ⟨rfl, rfl⟩
  refine ⟨flags.1, fun n spent => ?_⟩
  unfold isSpent at spent ⊢
  rw [flags.2, getD_addSpent, spent, Bool.true_or]

end CWalletTx

namespace WalletCoins

/-- An input of the transaction spends the output. -/
def Spends (tx : CTransaction) (hash : UInt256) (n : Nat) : Prop :=
  ∃ txin ∈ tx.vin, txin.prevout.hash = hash ∧ txin.prevout.n.toNat = n

/-- An input of a transaction of the wallet spends the output. -/
def SpentIn (w : WalletCoins) (hash : UInt256) (n : Nat) : Prop :=
  ∃ other wtx, w.mapWallet other = some wtx ∧ Spends wtx.tx hash n

/-- The own outputs in the wallet that count as spent are marked spent. -/
def MarkedBy (keys : WalletKeys) (spent : UInt256 → Nat → Prop) (w : WalletCoins) : Prop :=
  ∀ hash wtx n txout, w.mapWallet hash = some wtx → wtx.tx.vout[n]? = some txout →
    keys.isMine txout.scriptPubKey = true → spent hash n → wtx.isSpent n = true

/-- Every own output in the wallet that a transaction of the wallet spends is marked spent. -/
def Marked (keys : WalletKeys) (w : WalletCoins) : Prop := w.MarkedBy keys w.SpentIn

/-- The outputs of every transaction of the wallet are in the money range. -/
def Ranged (w : WalletCoins) : Prop := ∀ hash wtx, w.mapWallet hash = some wtx → wtx.tx.getValueOut.isSome = true

/-- A transaction is under its hash, if it is not a null transaction. -/
def Keyed (env : Env) (w : WalletCoins) : Prop :=
  ∀ hash wtx, w.mapWallet hash = some wtx → wtx.tx = CWalletTx.null.tx ∨ env.txHash wtx.tx = hash

/-- The transactions afterwards were there before, or are null. -/
def Stems (before after : WalletCoins) : Prop :=
  ∀ hash wtx', after.mapWallet hash = some wtx' →
    (∃ wtx, before.mapWallet hash = some wtx ∧ wtx'.tx = wtx.tx) ∨ wtx'.tx = CWalletTx.null.tx

theorem Stems.ranged {before after : WalletCoins} (stems : Stems before after) (ranged : before.Ranged) : after.Ranged := by
  intro hash wtx' found
  rcases stems _ _ found with ⟨wtx, found', same⟩ | null
  · rw [same]
    exact ranged hash wtx found'
  · rw [null]
    rfl

theorem Stems.keyed {env : Env} {before after : WalletCoins} (stems : Stems before after) (keyed : before.Keyed env) :
    after.Keyed env := by
  intro hash wtx' found
  rcases stems _ _ found with ⟨wtx, found', same⟩ | null
  · rw [same]
    exact keyed hash wtx found'
  · exact .inl null

/-- Flags are added, and null transactions. -/
structure Grows (before after : WalletCoins) : Prop where
  keeps : ∀ {hash wtx}, before.mapWallet hash = some wtx → ∃ wtx', after.mapWallet hash = some wtx' ∧ wtx'.tx = wtx.tx ∧
    ∀ n < wtx.tx.vout.length, wtx.isSpent n = true → wtx'.isSpent n = true
  adds : Stems before after

namespace Grows

variable {first second third : WalletCoins} {keys : WalletKeys}

theorem refl (w : WalletCoins) : Grows w w where
  keeps {_ wtx} found := ⟨wtx, found, rfl, fun _ _ spent => spent⟩
  adds _ wtx found := .inl ⟨wtx, found, rfl⟩

theorem trans (left : Grows first second) (right : Grows second third) : Grows first third where
  keeps found := by
    obtain ⟨wtx', found', same, flags⟩ := left.keeps found
    obtain ⟨wtx'', found'', same', flags'⟩ := right.keeps found'
    exact ⟨wtx'', found'', same'.trans same, fun n inside spent => flags' n (same ▸ inside) (flags n inside spent)⟩
  adds _ _ found := by
    rcases right.adds _ _ found with ⟨wtx, found', same⟩ | null
    · rcases left.adds _ _ found' with ⟨wtx', found'', same'⟩ | null
      · exact .inl ⟨wtx', found'', same.trans same'⟩
      · exact .inr (same.trans null)
    · exact .inr null

/-- An entry is replaced by one with the same transaction and at least its flags. -/
theorem set {w : WalletCoins} {hash : UInt256} {wtx after : CWalletTx} (found : w.mapWallet hash = some wtx)
    (same : after.tx = wtx.tx) (flags : ∀ n < wtx.tx.vout.length, wtx.isSpent n = true → after.isSpent n = true) :
    Grows w (w.set hash after) where
  keeps {hash' wtx'} found' := by
    simp only [mapWallet_set]
    split
    · rename_i here
      obtain rfl := Option.some.inj (found'.symm.trans (here ▸ found))
      exact ⟨after, rfl, same, flags⟩
    · exact ⟨wtx', found', rfl, fun _ _ spent => spent⟩
  adds hash' wtx' found' := by
    rw [mapWallet_set] at found'
    split at found'
    · rename_i here
      exact .inl ⟨wtx, here ▸ found, Option.some.inj found' ▸ same⟩
    · exact .inl ⟨wtx', found', rfl⟩

theorem spentIn (grows : Grows first second) {hash : UInt256} {n : Nat} :
    second.SpentIn hash n ↔ first.SpentIn hash n := by
  constructor
  · rintro ⟨other, wtx', found, txin, member, spends⟩
    rcases grows.adds _ _ found with ⟨wtx, found', same⟩ | null
    · exact ⟨other, wtx, found', txin, same ▸ member, spends⟩
    · rw [null] at member
      cases member
  · rintro ⟨other, wtx, found, txin, member, spends⟩
    obtain ⟨wtx', found', same, -⟩ := grows.keeps found
    exact ⟨other, wtx', found', txin, same.symm ▸ member, spends⟩

theorem markedBy (grows : Grows first second) {spent : UInt256 → Nat → Prop} (marked : first.MarkedBy keys spent) :
    second.MarkedBy keys spent := by
  intro hash wtx' n txout found output own due
  rcases grows.adds _ _ found with ⟨wtx, found', same⟩ | null
  · rw [same] at output
    obtain ⟨wtx'', found'', -, flags⟩ := grows.keeps found'
    obtain rfl := Option.some.inj (found''.symm.trans found)
    exact flags n (List.getElem?_eq_some_iff.mp output).1
      (marked hash wtx n txout found' output own due)
  · rw [null] at output
    cases output

theorem marked (grows : Grows first second) (marked : first.Marked keys) : second.Marked keys :=
  fun hash wtx n txout found output own spent =>
    grows.markedBy marked hash wtx n txout found output own (grows.spentIn.mp spent)

end Grows

/-- A transaction whose outputs `GetValueOut` can sum has a credit. -/
theorem sumOutputs_isSome (counts : CTxOut → Bool) {vout : List CTxOut} {total : Int64}
    (summed : CTransaction.addValueOut 0 vout = some total) : (sumOutputs counts vout).isSome = true := by
  have ranges : ∀ (vout : List CTxOut) {start : Int64}, CTransaction.addValueOut start vout = some total →
      (vout.all fun txout => moneyRange txout.nValue) = true := by
    intro vout
    induction vout with
    | nil => exact fun _ => rfl
    | cons txout rest ih =>
        intro start summed
        unfold CTransaction.addValueOut at summed
        dsimp only at summed
        split at summed
        · cases summed
        · rename_i ranged
          rw [Bool.or_eq_true, not_or, Bool.not_eq_true', Bool.not_eq_true', Bool.not_eq_false, Bool.not_eq_false] at ranged
          rw [List.all_cons, ranged.1, Bool.true_and]
          exact ih summed
  -- The part that counts is never above the whole.
  have part : ∀ (vout : List CTxOut) {start counted : Int64}, CTransaction.addValueOut start vout = some total →
      0 ≤ counted.toInt → counted.toInt ≤ start.toInt →
      ((vout.map fun txout => if counts txout then txout.nValue else 0).foldlM
        (fun sum amount => if moneyRange (sum + amount) then some (sum + amount) else none) counted).isSome = true := by
    intro vout
    induction vout with
    | nil => exact fun _ _ _ => rfl
    | cons txout rest ih =>
        intro start counted summed nonneg below
        unfold CTransaction.addValueOut at summed
        dsimp only at summed
        split at summed
        · cases summed
        · rename_i ranged
          rw [Bool.or_eq_true, not_or, Bool.not_eq_true', Bool.not_eq_true', Bool.not_eq_false, Bool.not_eq_false,
            moneyRange_iff, moneyRange_iff] at ranged
          have whole := toInt_add_of_nonneg (nonneg.trans below) ranged.1 ranged.2
          have fits := (start + txout.nValue).toInt_lt
          have exact_ : ∀ amount : Int64, 0 ≤ amount.toInt → amount.toInt ≤ txout.nValue.toInt →
              (counted + amount).toInt = counted.toInt + amount.toInt := by
            intro amount least most
            rw [Int64.toInt_add, Int.bmod_eq_of_le (by omega) (by omega)]
          rw [List.map_cons, List.foldlM_cons]
          split
          · have value := exact_ txout.nValue ranged.1 le_rfl
            rw [if_pos (moneyRange_iff.mpr (by omega))]
            exact ih summed (by omega) (by omega)
          · have value := exact_ 0 (by decide) ranged.1
            have zero : (0 : Int64).toInt = 0 := by decide
            rw [if_pos (moneyRange_iff.mpr (by omega))]
            exact ih summed (by omega) (by omega)
  unfold sumOutputs sumMoney
  rw [if_pos (ranges vout summed)]
  exact part vout summed le_rfl le_rfl

/-- An output of the wallet is its own. -/
def Own (keys : WalletKeys) (w : WalletCoins) (hash : UInt256) (n : Nat) : Prop :=
  ∃ wtx txout, w.mapWallet hash = some wtx ∧ wtx.tx.vout[n]? = some txout ∧ keys.isMine txout.scriptPubKey = true

/-- The entries stay, and of their flags exactly the given ones are set. -/
structure Marks (given : UInt256 → Nat → Prop) (before after : WalletCoins) : Prop where
  some_iff : ∀ hash, (after.mapWallet hash).isSome = (before.mapWallet hash).isSome
  flags : ∀ {hash wtx}, before.mapWallet hash = some wtx → ∃ wtx', after.mapWallet hash = some wtx' ∧
    wtx'.tx = wtx.tx ∧ ∀ n < wtx.tx.vout.length, wtx'.isSpent n = true ↔ wtx.isSpent n = true ∨ given hash n

namespace Marks

variable {given more : UInt256 → Nat → Prop} {first second third : WalletCoins} {keys : WalletKeys}

/-- What is given may be set already. -/
theorem refl {w : WalletCoins} (already : ∀ hash wtx n, w.mapWallet hash = some wtx → n < wtx.tx.vout.length →
    given hash n → wtx.isSpent n = true) : Marks given w w where
  some_iff _ := rfl
  flags {hash wtx} found :=
    ⟨wtx, found, rfl, fun n inside => ⟨.inl, fun spent => spent.elim id (already hash wtx n found inside)⟩⟩

theorem trans (left : Marks given first second) (right : Marks more second third) :
    Marks (fun hash n => given hash n ∨ more hash n) first third where
  some_iff hash := (right.some_iff hash).trans (left.some_iff hash)
  flags found := by
    obtain ⟨wtx', found', same, flags⟩ := left.flags found
    obtain ⟨wtx'', found'', same', flags'⟩ := right.flags found'
    refine ⟨wtx'', found'', same'.trans same, fun n inside => ?_⟩
    rw [flags' n (same ▸ inside), flags n inside, or_assoc]

theorem congr (marks : Marks given first second) (same : ∀ hash n, given hash n ↔ more hash n) :
    Marks more first second := by
  have equal : given = more := funext fun hash => funext fun n => propext (same hash n)
  exact equal ▸ marks

theorem none_iff (marks : Marks given first second) {hash : UInt256} :
    second.mapWallet hash = none ↔ first.mapWallet hash = none := by
  rw [← Option.not_isSome_iff_eq_none, ← Option.not_isSome_iff_eq_none, marks.some_iff hash]

/-- Every entry afterwards comes from one before. -/
theorem back (marks : Marks given first second) {hash : UInt256} {wtx' : CWalletTx}
    (found : second.mapWallet hash = some wtx') : ∃ wtx, first.mapWallet hash = some wtx ∧ wtx'.tx = wtx.tx ∧
      ∀ n < wtx.tx.vout.length, wtx'.isSpent n = true ↔ wtx.isSpent n = true ∨ given hash n := by
  obtain ⟨wtx, found'⟩ := Option.isSome_iff_exists.mp ((marks.some_iff hash).symm.trans (by rw [found]; rfl))
  obtain ⟨wtx'', found'', same, flags⟩ := marks.flags found'
  obtain rfl := Option.some.inj (found''.symm.trans found)
  exact ⟨wtx, found', same, flags⟩

theorem own_iff (marks : Marks given first second) {hash : UInt256} {n : Nat} :
    Own keys second hash n ↔ Own keys first hash n := by
  constructor
  · rintro ⟨wtx', txout, found, output, own⟩
    obtain ⟨wtx, found', same, -⟩ := marks.back found
    exact ⟨wtx, txout, found', same ▸ output, own⟩
  · rintro ⟨wtx, txout, found, output, own⟩
    obtain ⟨wtx', found', same, -⟩ := marks.flags found
    exact ⟨wtx', txout, found', same.symm ▸ output, own⟩

theorem grows (marks : Marks given first second) : Grows first second where
  keeps found := by
    obtain ⟨wtx', found', same, flags⟩ := marks.flags found
    exact ⟨wtx', found', same, fun n inside spent => (flags n inside).mpr (.inl spent)⟩
  adds _ _ found := by
    obtain ⟨wtx, found', same, -⟩ := marks.back found
    exact .inl ⟨wtx, found', same⟩

/-- One entry is replaced. -/
theorem set {w : WalletCoins} {hash : UInt256} {wtx after : CWalletTx} {flag : Nat → Prop}
    (found : w.mapWallet hash = some wtx) (same : after.tx = wtx.tx)
    (flags : ∀ n < wtx.tx.vout.length, after.isSpent n = true ↔ wtx.isSpent n = true ∨ flag n) :
    Marks (fun other n => other = hash ∧ flag n) w (w.set hash after) where
  some_iff other := by
    rw [mapWallet_set]
    split
    · rename_i here
      rw [here, found]
      rfl
    · rfl
  flags {other wtx'} found' := by
    simp only [mapWallet_set]
    split
    · rename_i here
      obtain rfl := Option.some.inj (found'.symm.trans (here ▸ found))
      exact ⟨after, rfl, same, fun n inside => by simpa [here] using flags n inside⟩
    · rename_i apart
      exact ⟨wtx', found', rfl, fun n _ => by simp [apart]⟩

end Marks

section Updates

variable {env : Env} {keys : WalletKeys}

/-- A transaction in the money range has a credit, and asking for it changes cached amounts only. -/
theorem getCredit_spec (keys : WalletKeys) (w : WalletCoins) {wtx : CWalletTx} (ranged : wtx.tx.getValueOut.isSome = true) :
    ∃ nCredit cached, w.getCredit keys wtx true = (some nCredit, cached) ∧ cached.tx = wtx.tx ∧
      cached.vfSpent = wtx.vfSpent := by
  obtain ⟨total, summed⟩ := Option.isSome_iff_exists.mp ranged
  obtain ⟨nCredit, credit⟩ := Option.isSome_iff_exists.mp
    (sumOutputs_isSome (fun txout => keys.isMine txout.scriptPubKey) summed)
  unfold getCredit
  split
  · exact ⟨0, wtx, rfl, rfl, rfl⟩
  · split
    · exact ⟨_, wtx, rfl, rfl, rfl⟩
    · rw [getCreditTx, credit]
      exact ⟨nCredit, _, rfl, rfl, rfl⟩

/-- An input marks the own output that it spends, and nothing else. -/
theorem spendInput_marks (keys : WalletKeys) {w : WalletCoins} (ranged : w.Ranged) (txin : CTxIn) :
    ∃ after, spendInput keys w txin = .ok after ∧
      Marks (fun hash n => (hash = txin.prevout.hash ∧ n = txin.prevout.n.toNat) ∧ Own keys w hash n) w after := by
  unfold spendInput
  cases found : w.mapWallet txin.prevout.hash with
  | none =>
      refine ⟨w, rfl, .refl ?_⟩
      rintro hash wtx n found' - ⟨⟨rfl, -⟩, -⟩
      rw [found] at found'
      cases found'
  | some wtx =>
      dsimp only
      cases output : wtx.tx.vout[txin.prevout.n.toNat]? with
      | none =>
          refine ⟨w, rfl, .refl ?_⟩
          rintro hash wtx' n found' inside ⟨⟨rfl, rfl⟩, -⟩
          obtain rfl := Option.some.inj (found.symm.trans found')
          exact absurd inside (List.getElem?_eq_none_iff.mp output).not_gt
      | some txout =>
          dsimp only
          have there := (List.getElem?_eq_some_iff.mp output).1
          cases due : !wtx.isSpent txin.prevout.n.toNat && keys.isMine txout.scriptPubKey with
          | false =>
              refine ⟨w, rfl, .refl ?_⟩
              rintro hash wtx' n found' - ⟨⟨rfl, rfl⟩, wtx'', txout', found'', output', own⟩
              obtain rfl := Option.some.inj (found.symm.trans found')
              obtain rfl := Option.some.inj (found.symm.trans found'')
              obtain rfl := Option.some.inj (output.symm.trans output')
              rw [own, Bool.and_true, Bool.not_eq_false'] at due
              exact due
          | true =>
              have own : keys.isMine txout.scriptPubKey = true := (Bool.and_eq_true_iff.mp due).2
              obtain ⟨nCredit, cached, credited, sameTx, sameFlags⟩ :=
                getCredit_spec keys w (ranged _ _ found)
              obtain ⟨marked, done, same, flags⟩ := CWalletTx.setSpent_spec (sameTx.symm ▸ there) true
              rw [if_pos rfl, credited]
              dsimp only
              rw [CWalletTx.markSpent, done]
              have marks : Marks (fun hash n => hash = txin.prevout.hash ∧ n = txin.prevout.n.toNat) w
                  (w.set txin.prevout.hash marked) := by
                refine .set found (same.trans sameTx) fun n inside => ?_
                rw [flags n (sameTx.symm ▸ inside), CWalletTx.isSpent, sameFlags]
                split
                · rename_i here
                  simp [here]
                · rename_i apart
                  simp [apart, CWalletTx.isSpent]
              refine ⟨_, rfl, marks.congr fun hash n => ⟨fun here => ⟨here, ?_⟩, And.left⟩⟩
              obtain ⟨rfl, rfl⟩ := here
              exact ⟨wtx, txout, found, output, own⟩

/-- An input marks the own output that it spends. -/
theorem spendInput_spec {w : WalletCoins} (ranged : w.Ranged) (txin : CTxIn) :
    ∃ after, spendInput keys w txin = .ok after ∧ Grows w after ∧
      ∀ wtx txout, after.mapWallet txin.prevout.hash = some wtx → wtx.tx.vout[txin.prevout.n.toNat]? = some txout →
        keys.isMine txout.scriptPubKey = true → wtx.isSpent txin.prevout.n.toNat = true := by
  obtain ⟨after, done, marks⟩ := spendInput_marks keys ranged txin
  refine ⟨after, done, marks.grows, fun wtx' txout found output own => ?_⟩
  obtain ⟨wtx, found', same, flags⟩ := marks.back found
  rw [same] at output
  exact (flags _ (List.getElem?_eq_some_iff.mp output).1).mpr (.inr ⟨⟨rfl, rfl⟩, wtx, txout, found', output, own⟩)

/-- All inputs of a transaction mark the own outputs that they spend. -/
theorem spendInputs_spec (vin : List CTxIn) {w : WalletCoins} (ranged : w.Ranged) :
    ∃ after, vin.foldlM (spendInput keys) w = .ok after ∧ Grows w after ∧ ∀ txin ∈ vin, ∀ wtx txout,
      after.mapWallet txin.prevout.hash = some wtx → wtx.tx.vout[txin.prevout.n.toNat]? = some txout →
        keys.isMine txout.scriptPubKey = true → wtx.isSpent txin.prevout.n.toNat = true := by
  induction vin generalizing w with
  | nil => exact ⟨w, rfl, .refl w, nofun⟩
  | cons txin rest ih =>
      obtain ⟨middle, first, grows, marks⟩ := @spendInput_spec keys _ ranged txin
      obtain ⟨after, done, grows', marks'⟩ := ih (grows.adds.ranged ranged)
      refine ⟨after, by rw [List.foldlM_cons, first]; exact done, grows.trans grows', fun txin' member => ?_⟩
      rcases List.mem_cons.mp member with rfl | later
      · intro wtx' txout found output own
        rcases grows'.adds _ _ found with ⟨wtx, found', same⟩ | null
        · rw [same] at output
          obtain ⟨wtx'', found'', -, flags⟩ := grows'.keeps found'
          obtain rfl := Option.some.inj (found''.symm.trans found)
          exact flags _ (List.getElem?_eq_some_iff.mp output).1 (marks wtx txout found' output own)
        · rw [null] at output
          cases output
      · exact marks' txin' later

/-- All inputs of a transaction mark the own outputs that they spend, and nothing else. -/
theorem spendInputs_marks (keys : WalletKeys) (tx : CTransaction) {w : WalletCoins} (ranged : w.Ranged) :
    ∃ after, tx.vin.foldlM (spendInput keys) w = .ok after ∧
      Marks (fun hash n => Spends tx hash n ∧ Own keys w hash n) w after := by
  unfold Spends
  induction tx.vin generalizing w with
  | nil => exact ⟨w, rfl, .refl fun _ _ _ _ _ given => by simp at given⟩
  | cons txin rest ih =>
      obtain ⟨middle, first, marks⟩ := spendInput_marks keys ranged txin
      obtain ⟨after, done, marks'⟩ := ih (marks.grows.adds.ranged ranged)
      refine ⟨after, by rw [List.foldlM_cons, first]; exact done, (marks.trans marks').congr fun hash n => ?_⟩
      rw [marks.own_iff, ← or_and_right]
      refine and_congr_left fun _ => ?_
      simp only [List.mem_cons, exists_eq_or_imp]
      exact or_congr_left (and_congr eq_comm eq_comm)

/-- Flags of one entry are taken away, only at the positions of some own outputs. -/
structure Unspends (keys : WalletKeys) (hash : UInt256) (entries : List (CTxOut × Nat)) (before after : WalletCoins) :
    Prop where
  others : ∀ {other}, other ≠ hash → after.mapWallet other = before.mapWallet other
  entry : ∀ {wtx}, before.mapWallet hash = some wtx → ∃ wtx', after.mapWallet hash = some wtx' ∧ wtx'.tx = wtx.tx ∧
    ∀ n < wtx.tx.vout.length, (∀ txout, (txout, n) ∈ entries → keys.isMine txout.scriptPubKey = false) →
      wtx'.isSpent n = wtx.isSpent n
  none : before.mapWallet hash = none → after.mapWallet hash = none

theorem unspendOutputs_spec (hash : UInt256) (entries : List (CTxOut × Nat)) (w : WalletCoins) :
    Unspends keys hash entries w (resultState (entries.foldlM (unspendOutput keys hash) w)) := by
  induction entries generalizing w with
  | nil => exact ⟨fun _ => rfl, fun {wtx} found => ⟨wtx, found, rfl, fun _ _ _ => rfl⟩, id⟩
  | cons entry rest ih =>
      obtain ⟨txout, n⟩ := entry
      have stays : Unspends keys hash ((txout, n) :: rest) w w :=
        ⟨fun _ => rfl, fun {wtx} found => ⟨wtx, found, rfl, fun _ _ _ => rfl⟩, id⟩
      rw [List.foldlM_cons]
      unfold unspendOutput
      dsimp only
      by_cases own : keys.isMine txout.scriptPubKey = true
      · rw [if_pos own]
        cases found : w.mapWallet hash with
        | none => exact stays
        | some wtx =>
            rw [Option.bind_some]
            by_cases there : n < wtx.tx.vout.length
            · obtain ⟨cleared, done, same, flags⟩ := CWalletTx.setSpent_spec there false
              rw [CWalletTx.markUnspent, done]
              have later := ih (w.set hash cleared)
              refine ⟨fun apart => (later.others apart).trans ?_, fun found' => ?_, fun absent => ?_⟩
              · rw [mapWallet_set, if_neg apart]
              · obtain rfl := Option.some.inj (found.symm.trans found')
                obtain ⟨wtx', found'', same', flags'⟩ := later.entry (by rw [mapWallet_set, if_pos rfl])
                refine ⟨wtx', found'', same'.trans same, fun m inside foreign => ?_⟩
                rw [flags' m (same ▸ inside) fun txout' member => foreign txout' (List.mem_cons_of_mem _ member),
                  flags m inside, if_neg]
                rintro rfl
                rw [foreign txout List.mem_cons_self] at own
                cases own
              · rw [found] at absent
                cases absent
            · have thrown : wtx.markUnspent n = Option.none := if_pos (Nat.le_of_not_lt there)
              rw [thrown]
              exact stays
      · rw [if_neg own]
        have later := ih w
        refine ⟨later.others, fun found => ?_, later.none⟩
        obtain ⟨wtx', found', same, flags⟩ := later.entry found
        exact ⟨wtx', found', same, fun m inside foreign =>
          flags m inside fun txout' member => foreign txout' (List.mem_cons_of_mem _ member)⟩

theorem Unspends.sameTx {hash : UInt256} {entries : List (CTxOut × Nat)} {before after : WalletCoins}
    (unspends : Unspends keys hash entries before after) {other : UInt256} {wtx' : CWalletTx}
    (found : after.mapWallet other = some wtx') : ∃ wtx, before.mapWallet other = some wtx ∧ wtx'.tx = wtx.tx := by
  by_cases here : other = hash
  · subst here
    cases old : before.mapWallet other with
    | none =>
        rw [unspends.none old] at found
        cases found
    | some wtx =>
        obtain ⟨wtx'', found', same, -⟩ := unspends.entry old
        obtain rfl := Option.some.inj (found.symm.trans found')
        exact ⟨wtx, rfl, same⟩
  · exact ⟨wtx', (unspends.others here).symm.trans found, rfl⟩

/-- `WalletUpdateSpent` marks what the transaction spends. For a transaction in a block, nothing may spend from it. -/
theorem walletUpdateSpent_marks {w : WalletCoins} {spent : UInt256 → Nat → Prop} (ranged : w.Ranged)
    (marked : w.MarkedBy keys spent) (tx : CTransaction) (fBlock : Bool)
    (covered : ∀ hash n, w.SpentIn hash n → spent hash n ∨ Spends tx hash n)
    (clear : fBlock = true → ∀ n txout, tx.vout[n]? = some txout → keys.isMine txout.scriptPubKey = true →
      ¬w.SpentIn (env.txHash tx) n) :
    (resultState (w.walletUpdateSpent env keys tx fBlock)).Marked keys ∧
      Stems w (resultState (w.walletUpdateSpent env keys tx fBlock)) := by
  obtain ⟨middle, spends, grows, marks⟩ := @spendInputs_spec keys tx.vin _ ranged
  have middleMarked : middle.Marked keys := by
    intro hash wtx n txout found output own due
    rcases covered hash n (grows.spentIn.mp due) with before | ⟨txin, member, rfl, rfl⟩
    · exact grows.markedBy marked hash wtx n txout found output own before
    · exact marks txin member wtx txout found output own
  have run : w.walletUpdateSpent env keys tx fBlock =
      if fBlock then tx.vout.zipIdx.foldlM (unspendOutput keys (env.txHash tx)) middle else .ok middle := by
    rw [walletUpdateSpent, spends]
    rfl
  rw [run]
  cases fBlock with
  | false => exact ⟨middleMarked, grows.adds⟩
  | true =>
      rw [if_pos rfl]
      have unspends := @unspendOutputs_spec keys (env.txHash tx) tx.vout.zipIdx middle
      generalize resultState (tx.vout.zipIdx.foldlM (unspendOutput keys (env.txHash tx)) middle) = after at unspends
      have spentIn : ∀ {hash n}, after.SpentIn hash n → middle.SpentIn hash n := by
        rintro hash n ⟨other, wtx', found, txin, member, due⟩
        obtain ⟨wtx, found', same⟩ := unspends.sameTx found
        exact ⟨other, wtx, found', txin, same ▸ member, due⟩
      constructor
      · intro hash wtx' n txout found output own due
        obtain ⟨wtx, old, same⟩ := unspends.sameTx found
        rw [same] at output
        have before := middleMarked hash wtx n txout old output own (spentIn due)
        by_cases here : hash = env.txHash tx
        · subst here
          obtain ⟨wtx'', found', -, flags⟩ := unspends.entry old
          obtain rfl := Option.some.inj (found.symm.trans found')
          rw [flags n (List.getElem?_eq_some_iff.mp output).1 fun txout' member => ?_, before]
          have at_ : tx.vout[n]? = some txout' := List.mem_zipIdx_iff_getElem?.mp member
          by_contra other
          exact clear rfl n txout' at_ (Bool.of_not_eq_false other) (grows.spentIn.mp (spentIn due))
        · rw [unspends.others here, old] at found
          rw [← Option.some.inj found]
          exact before
      · intro hash wtx' found
        obtain ⟨wtx, old, same⟩ := unspends.sameTx found
        rw [same]
        exact grows.adds hash wtx old

/-- The transaction that the wallet has under the hash of the given one, or the given one. -/
def known (env : Env) (w : WalletCoins) (wtxIn : CWalletTx) : CTransaction :=
  ((w.mapWallet (env.txHash wtxIn.tx)).map CWalletTx.tx).getD wtxIn.tx

/-- What a transaction has to be for `AddToWallet`: where an own output of it is spent in the wallet already, it comes
without its block, and it is in the wallet or marks the output itself. -/
structure Addable (env : Env) (keys : WalletKeys) (w : WalletCoins) (wtxIn : CWalletTx) : Prop where
  ranged : wtxIn.tx.getValueOut.isSome = true
  unconfirmed : ∀ n txout, (w.known env wtxIn).vout[n]? = some txout → keys.isMine txout.scriptPubKey = true →
    w.SpentIn (env.txHash wtxIn.tx) n ∨ Spends (w.known env wtxIn) (env.txHash wtxIn.tx) n → wtxIn.hashBlock = 0
  flagged : w.mapWallet (env.txHash wtxIn.tx) = none → ∀ n txout, wtxIn.tx.vout[n]? = some txout →
    keys.isMine txout.scriptPubKey = true → w.SpentIn (env.txHash wtxIn.tx) n → wtxIn.isSpent n = true

theorem added_spec (env : Env) (w : WalletCoins) (wtxIn : CWalletTx) :
    (w.added env wtxIn).tx = w.known env wtxIn ∧
      (∀ {wtx}, w.mapWallet (env.txHash wtxIn.tx) = some wtx → (w.added env wtxIn).tx = wtx.tx ∧
        ∀ n, wtx.isSpent n = true → (w.added env wtxIn).isSpent n = true) ∧
      (w.mapWallet (env.txHash wtxIn.tx) = none → w.added env wtxIn = wtxIn.markDirty) := by
  unfold known added
  cases found : w.mapWallet (env.txHash wtxIn.tx) with
  | none => exact ⟨rfl, nofun, fun _ => rfl⟩
  | some wtx =>
      obtain ⟨same, flags⟩ := CWalletTx.merge_spec wtx.markDirty wtxIn
      refine ⟨same, fun found' => ?_, nofun⟩
      obtain rfl := Option.some.inj found'
      exact ⟨same, flags⟩

theorem replaceDefaultKey_mapWallet (scriptDefaultKey : CScript) (vout : List CTxOut) (poolKeys : List (BitVec 160))
    (w : WalletCoins) : (replaceDefaultKey scriptDefaultKey vout poolKeys w).mapWallet = w.mapWallet := by
  induction vout generalizing poolKeys w with
  | nil => rfl
  | cons txout rest ih =>
      cases poolKeys with
      | nil => rfl
      | cons id poolKeys =>
          unfold replaceDefaultKey
          split
          · exact ih poolKeys _
          · exact ih (id :: poolKeys) w

/-- What holds between the calls. -/
structure Settled (env : Env) (keys : WalletKeys) (w : WalletCoins) : Prop where
  marked : w.Marked keys
  ranged : w.Ranged
  keyed : w.Keyed env

theorem Settled.walletUpdateSpent {w : WalletCoins} (settled : w.Settled env keys) (tx : CTransaction) (fBlock : Bool)
    (clear : fBlock = true → ∀ n txout, tx.vout[n]? = some txout → keys.isMine txout.scriptPubKey = true →
      ¬w.SpentIn (env.txHash tx) n) : (resultState (w.walletUpdateSpent env keys tx fBlock)).Settled env keys := by
  obtain ⟨marked, stems⟩ := @walletUpdateSpent_marks env _ _ _ settled.ranged settled.marked tx fBlock
    (fun _ _ spent => .inl spent) clear
  exact ⟨marked, stems.ranged settled.ranged, stems.keyed settled.keyed⟩

/-- `AddToWallet` of an addable transaction keeps every spent coin marked. -/
theorem Settled.addToWallet {w : WalletCoins} (settled : w.Settled env keys) {wtxIn : CWalletTx}
    (addable : w.Addable env keys wtxIn) (poolKeys : List (BitVec 160)) :
    (resultState (w.addToWallet env keys poolKeys wtxIn)).Settled env keys := by
  obtain ⟨sameTx, existing, inserted⟩ := added_spec env w wtxIn
  -- The default key changes nothing in `mapWallet`, so the argument is about any wallet with these entries.
  have entries : ∀ {middle : WalletCoins},
      middle.mapWallet = (w.set (env.txHash wtxIn.tx) (w.added env wtxIn)).mapWallet →
      (resultState (middle.walletUpdateSpent env keys (w.added env wtxIn).tx (wtxIn.hashBlock ≠ 0))).Settled env keys := by
    intro middle same
    have lookup : ∀ other, middle.mapWallet other =
        if other = env.txHash wtxIn.tx then some (w.added env wtxIn) else w.mapWallet other :=
      fun other => by rw [same, mapWallet_set]
    have knownTx : (w.added env wtxIn).tx = CWalletTx.null.tx ∨
        env.txHash (w.added env wtxIn).tx = env.txHash wtxIn.tx := by
      cases old : w.mapWallet (env.txHash wtxIn.tx) with
      | none =>
          rw [inserted old]
          exact .inr rfl
      | some wtx =>
          rw [(existing old).1]
          exact settled.keyed _ wtx old
    have middleSpent : ∀ {other n}, middle.SpentIn other n → w.SpentIn other n ∨ Spends (w.known env wtxIn) other n := by
      rintro other n ⟨by_, wtx, found, spends⟩
      rw [lookup] at found
      split at found
      · rw [← Option.some.inj found, sameTx] at spends
        exact .inr spends
      · exact .inl ⟨by_, wtx, found, spends⟩
    have middleRanged : middle.Ranged := by
      intro other wtx found
      rw [lookup] at found
      split at found
      · rw [← Option.some.inj found, sameTx, known]
        cases old : w.mapWallet (env.txHash wtxIn.tx) with
        | none => exact addable.ranged
        | some wtx => exact settled.ranged _ wtx old
      · exact settled.ranged other wtx found
    have middleKeyed : middle.Keyed env := by
      intro other wtx found
      rw [lookup] at found
      split at found
      · rename_i here
        rw [← Option.some.inj found, here]
        exact knownTx
      · exact settled.keyed other wtx found
    have middleMarked : middle.MarkedBy keys w.SpentIn := by
      intro other wtx n txout found output own spent
      rw [lookup] at found
      split at found
      · rename_i here
        rw [here] at spent
        obtain rfl := Option.some.inj found
        cases old : w.mapWallet (env.txHash wtxIn.tx) with
        | none =>
            rw [inserted old] at output ⊢
            exact addable.flagged old n txout output own spent
        | some wtx =>
            obtain ⟨same, flags⟩ := existing old
            exact flags n (settled.marked _ wtx n txout old (same ▸ output) own spent)
      · exact settled.marked other wtx n txout found output own spent
    obtain ⟨marked, stems⟩ := @walletUpdateSpent_marks env _ _ _ middleRanged middleMarked (w.added env wtxIn).tx
      (wtxIn.hashBlock ≠ 0) (fun other n spent => by rw [sameTx]; exact middleSpent spent)
      (fun fBlock n txout output own spent => by
        rcases knownTx with null | hash
        · rw [null] at output
          cases output
        · rw [hash] at spent
          rw [sameTx] at output
          exact of_decide_eq_true fBlock (addable.unconfirmed n txout output own (middleSpent spent)))
    exact ⟨marked, stems.ranged middleRanged, stems.keyed middleKeyed⟩
  unfold WalletCoins.addToWallet
  dsimp only
  split
  · exact entries (replaceDefaultKey_mapWallet _ _ _ _)
  · exact entries rfl

/-- `CommitTransaction` marks once more what the transaction spends. -/
theorem commitInputs_grows (vin : List CTxIn) (w : WalletCoins) :
    Grows w (resultState (vin.foldlM commitInput w)) := by
  induction vin generalizing w with
  | nil => exact .refl w
  | cons txin rest ih =>
      have dirty : ∀ {after : CWalletTx}, after.tx = (((w.mapWallet txin.prevout.hash).getD .null).markDirty).tx →
          (∀ n < after.tx.vout.length, ((w.mapWallet txin.prevout.hash).getD .null).isSpent n = true →
            after.isSpent n = true) → Grows w (w.set txin.prevout.hash after) := by
        intro after same flags
        cases found : w.mapWallet txin.prevout.hash with
        | some wtx =>
            rw [found] at same flags
            exact .set found same fun n inside spent => flags n (same.symm ▸ inside) spent
        | none =>
            rw [found] at same
            refine ⟨fun {hash wtx} found' => ⟨wtx, ?_, rfl, fun _ _ spent => spent⟩, fun hash wtx' found' => ?_⟩
            · rw [mapWallet_set, if_neg]
              · exact found'
              · rintro rfl
                rw [found] at found'
                cases found'
            · rw [mapWallet_set] at found'
              split at found'
              · exact .inr (Option.some.inj found' ▸ same)
              · exact .inl ⟨wtx', found', rfl⟩
      rw [List.foldlM_cons]
      unfold commitInput
      dsimp only
      by_cases there : txin.prevout.n.toNat < (((w.mapWallet txin.prevout.hash).getD .null).markDirty).tx.vout.length
      · obtain ⟨marked, done, same, flags⟩ := CWalletTx.setSpent_spec there true
        rw [CWalletTx.markSpent, done]
        refine (dirty same fun n inside spent => ?_).trans (ih _)
        rw [flags n (same ▸ inside)]
        split
        · rfl
        · exact spent
      · have thrown : (((w.mapWallet txin.prevout.hash).getD .null).markDirty).markSpent txin.prevout.n.toNat = none :=
          if_pos (Nat.le_of_not_lt there)
        rw [thrown]
        exact dirty rfl fun _ _ spent => spent

theorem Settled.grows {before after : WalletCoins} (settled : before.Settled env keys) (grows : Grows before after) :
    after.Settled env keys :=
  ⟨grows.marked settled.marked, grows.adds.ranged settled.ranged, grows.adds.keyed settled.keyed⟩

theorem Settled.commitTransaction {w : WalletCoins} (settled : w.Settled env keys) {wtxNew : CWalletTx}
    (addable : w.Addable env keys wtxNew) (poolKeys : List (BitVec 160)) :
    (resultState (w.commitTransaction env keys poolKeys wtxNew)).Settled env keys := by
  have added := settled.addToWallet addable poolKeys
  unfold WalletCoins.commitTransaction
  cases result : w.addToWallet env keys poolKeys wtxNew with
  | error w' =>
      rw [result] at added
      exact added
  | ok w' =>
      rw [result] at added
      exact added.grows (commitInputs_grows wtxNew.tx.vin w')

end Updates

end WalletCoins

open WalletCoins

/-- What happens to the coins of a wallet. The chain sets how many blocks a reward needs to be mature. -/
inductive CoinEvent where
  | addToWallet (wtxIn : CWalletTx) (poolKeys : List (BitVec 160))
  | addToWalletIfInvolvingMe (tx : CTransaction) (pblock : Option CBlock) (fUpdate : Bool) (poolKeys : List (BitVec 160))
  | commitTransaction (wtxNew : CWalletTx) (poolKeys : List (BitVec 160))
  | walletUpdateSpent (tx : CTransaction) (fBlock : Bool)
  | chain (blocksToMaturity : CWalletTx → Int)

namespace CoinEvent

variable (env : Env) (keys : WalletKeys)

/-- The wallet after a call, which may have thrown. -/
def step (w : WalletCoins) : CoinEvent → WalletCoins
  | addToWallet wtxIn poolKeys => resultState (w.addToWallet env keys poolKeys wtxIn)
  | addToWalletIfInvolvingMe tx pblock fUpdate poolKeys =>
      resultState (w.addToWalletIfInvolvingMe env keys poolKeys tx pblock fUpdate)
  | commitTransaction wtxNew poolKeys => resultState (w.commitTransaction env keys poolKeys wtxNew)
  | walletUpdateSpent tx fBlock => resultState (w.walletUpdateSpent env keys tx fBlock)
  | chain blocksToMaturity => { w with blocksToMaturity := blocksToMaturity }

/-- The transaction that a call gives to `AddToWallet`. -/
def incoming (w : WalletCoins) : CoinEvent → Option CWalletTx
  | addToWallet wtxIn _ => some wtxIn
  | addToWalletIfInvolvingMe tx pblock fUpdate _ =>
      let wtx := CWalletTx.ofBlock env tx pblock
      if (w.mapWallet (env.txHash tx)).isSome then if fUpdate then some wtx else none
      else if isMineTx keys tx || (w.getDebitTx keys tx).any (0 < ·) then some wtx
      else none
  | commitTransaction wtxNew _ => some wtxNew
  | _ => none

variable {env keys} {w : WalletCoins}

end CoinEvent

section Runs

variable (env : Env) (keys : WalletKeys)

variable {env keys}

end Runs

section Concrete

/-- A wallet to which every output belongs. -/
def WalletKeys.all : WalletKeys := ⟨fun _ => true, fun _ => none, fun _ => true, 0⟩

/-- The wallet before its first transaction. -/
def WalletCoins.empty : WalletCoins := ⟨fun _ => none, none, fun _ => false, fun _ => 0⟩

/-- A coin and the transaction that spends it. -/
def coinTx : CWalletTx := .ofTx (.labelledSpend 1 0 ⟨9, 0⟩ coin)

def spendTx : CWalletTx := .ofTx (.labelledSpend 2 0 ⟨1, 0⟩ coin)

def WalletCoins.add (w : WalletCoins) (wtxIn : CWalletTx) : WalletCoins :=
  CoinEvent.step (Env.labelled true) .all w (.addToWallet wtxIn [])

end Concrete

end InfiniteRicks
