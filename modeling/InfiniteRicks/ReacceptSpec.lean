import Mathlib.Data.Set.Card
import InfiniteRicks.Reaccept

/-!
# Reaccepting converges

The rounds of `ReacceptWalletTransactions` end, since each further round has a transaction more in the
wallet. In the last round nothing is added, and what it marks can be told from the state in which it
begins: every own output that the index has as spent, but for those of the generated transactions that the
loop skips because of a single output. An output of these is marked only when the scan reads a transaction
that spends it and that is not in the wallet.
-/

namespace InfiniteRicks

open WalletCoins

/-- An output is spent according to the transaction index. -/
def CTxDB.Spent (txdb : CTxDB) (hash : UInt256) (n : Nat) : Prop :=
  ∃ txindex, txdb.fresh.readTxIndex hash = some txindex ∧ txindex.spends n = true

/-! ## Marking what the index has as spent -/

namespace CWalletTx

variable {keys : WalletKeys} {wtx : CWalletTx}

/-- An entry of `vSpent` that marks an output. -/
def Noted (keys : WalletKeys) (tx : CTransaction) (entry : CDiskTxPos × Nat) : Prop :=
  entry.1.isNull = false ∧ ∃ txout, tx.vout[entry.2]? = some txout ∧ keys.isMine txout.scriptPubKey = true

/-- The loop over `vSpent` marks the noted outputs, and reports whether one of them was not marked. -/
theorem noteSpent_foldl (entries : List (CDiskTxPos × Nat)) (found : List CDiskTxPos) :
    (entries.foldl (noteSpent keys) (wtx, found)).1.tx = wtx.tx ∧
      (∀ n < wtx.tx.vout.length, (entries.foldl (noteSpent keys) (wtx, found)).1.isSpent n = true ↔
        wtx.isSpent n = true ∨ ∃ entry ∈ entries, entry.2 = n ∧ Noted keys wtx.tx entry) ∧
      ((entries.foldl (noteSpent keys) (wtx, found)).2 = [] ↔
        found = [] ∧ ∀ entry ∈ entries, Noted keys wtx.tx entry → wtx.isSpent entry.2 = true) := by
  induction entries generalizing wtx found with
  | nil => simp
  | cons entry rest ih =>
      -- One entry: the outputs stay, and its flag is set where it is noted.
      have step : (noteSpent keys (wtx, found) entry).1.tx = wtx.tx ∧
          (∀ n < wtx.tx.vout.length, (noteSpent keys (wtx, found) entry).1.isSpent n = true ↔
            wtx.isSpent n = true ∨ entry.2 = n ∧ Noted keys wtx.tx entry) ∧
          ((noteSpent keys (wtx, found) entry).2 = [] ↔
            found = [] ∧ (Noted keys wtx.tx entry → wtx.isSpent entry.2 = true)) := by
        unfold noteSpent Noted
        dsimp only
        cases output : wtx.tx.vout[entry.2]? with
        | none => simp
        | some txout =>
            dsimp only
            have there := (List.getElem?_eq_some_iff.mp output).1
            split
            · rename_i already
              refine ⟨rfl, fun n _ => ⟨.inl, fun spent => spent.elim id fun here => here.1 ▸ already⟩, ?_⟩
              simp [already]
            · rename_i unspent
              split
              · rename_i due
                rw [Bool.and_eq_true, Bool.not_eq_true'] at due
                obtain ⟨marked, done, same, flags⟩ := setSpent_spec there true
                rw [markSpent, done]
                refine ⟨same, fun n inside => ?_, ?_⟩
                · simp only [Option.getD_some]
                  rw [flags n inside]
                  by_cases here : n = entry.2
                  · simp [here, due]
                  · simp [here, Ne.symm here]
                · simp [due, unspent]
              · rename_i undue
                rw [Bool.and_eq_true, Bool.not_eq_true', not_and] at undue
                refine ⟨rfl, fun n _ => ⟨.inl, fun spent => spent.elim id fun here => ?_⟩, ?_⟩
                · obtain ⟨-, nonnull, txout', output', own⟩ := here
                  cases output'
                  exact absurd own (undue nonnull)
                · simp only [Option.some.injEq, exists_eq_left', and_imp, iff_self_and]
                  exact fun _ nonnull own => absurd own (undue nonnull)
      obtain ⟨same, flags, empty⟩ := step
      rw [List.foldl_cons]
      obtain ⟨same', flags', empty'⟩ := @ih (noteSpent keys (wtx, found) entry).1
        (noteSpent keys (wtx, found) entry).2
      rw [same] at same' flags' empty'
      refine ⟨same', fun n inside => ?_, ?_⟩
      · rw [flags' n inside, flags n inside, or_assoc]
        simp only [List.mem_cons, exists_eq_or_imp]
      · rw [empty', empty, and_assoc]
        refine and_congr_right fun _ => ?_
        rw [List.forall_mem_cons]
        refine and_congr_right fun now => forall₂_congr fun other _ => imp_congr_right fun noted => ?_
        have inside : other.2 < wtx.tx.vout.length := by
          obtain ⟨-, txout, output, -⟩ := noted
          exact (List.getElem?_eq_some_iff.mp output).1
        rw [flags _ inside]
        refine ⟨fun spent => spent.elim id ?_, .inl⟩
        rintro ⟨here, noted'⟩
        exact here ▸ now noted'

end CWalletTx

/-- The transactions of the wallet and of the chain: their outputs are in the money range, so is what one of them
spends, and the index has a place for each output. -/
structure SoundLedger (env : Env) (s : Node) (U : Set CTransaction) : Prop where
  ranged : ∀ tx ∈ U, tx.getValueOut.isSome = true
  indexed : ∀ tx ∈ U, ∀ txindex, s.txdb.fresh.readTxIndex (env.txHash tx) = some txindex →
    txindex.vSpent.length = tx.vout.length
  funded : ∀ tx ∈ U, ∀ amount : CTxIn → Int64, (∀ txin ∈ tx.vin, amount txin = 0 ∨
    ∃ prev ∈ U, env.txHash prev = txin.prevout.hash ∧
      ∃ txout, prev.vout[txin.prevout.n.toNat]? = some txout ∧ amount txin = txout.nValue) →
    (sumMoney (tx.vin.map amount)).isSome = true
  onDisk : ∀ {nFile nBlockPos block}, s.files.readBlock nFile nBlockPos = some block → ∀ tx ∈ block.vtx, tx ∈ U

/-- The transactions of a wallet are known, and under their hashes. -/
structure Inside (env : Env) (U : Set CTransaction) (w : WalletCoins) : Prop where
  known : ∀ {hash wtx}, w.mapWallet hash = some wtx → wtx.tx ∈ U
  keyed : ∀ {hash wtx}, w.mapWallet hash = some wtx → env.txHash wtx.tx = hash

section Rounds

variable {env : Env} {keys : WalletKeys} {s : Node} {U : Set CTransaction} {w : WalletCoins}

theorem Inside.ranged (inside : Inside env U w) (sound : SoundLedger env s U) : w.Ranged :=
  fun _ _ found => sound.ranged _ (inside.known found)

theorem Inside.marks {given : UInt256 → Nat → Prop} {after : WalletCoins} (inside : Inside env U w)
    (marks : Marks given w after) : Inside env U after where
  known found := by
    obtain ⟨wtx, found', same, -⟩ := marks.back found
    exact same ▸ inside.known found'
  keyed found := by
    obtain ⟨wtx, found', same, -⟩ := marks.back found
    exact same ▸ inside.keyed found'

/-- A round marks the own outputs that the index has as spent, but for those of skipped transactions. -/
def Due (keys : WalletKeys) (s : Node) (w : WalletCoins) (hash : UInt256) (n : Nat) : Prop :=
  (∃ wtx, w.mapWallet hash = some wtx ∧ wtx.skipped = false) ∧ s.txdb.Spent hash n ∧ Own keys w hash n

/-- The output is marked spent. -/
def IsMarked (w : WalletCoins) (hash : UInt256) (n : Nat) : Prop :=
  ∃ wtx, w.mapWallet hash = some wtx ∧ wtx.isSpent n = true

/-- What the loop does to one transaction. -/
theorem reacceptTx_spec (keys : WalletKeys) (sound : SoundLedger env s U) (inside : Inside env U w)
    (missing : List CDiskTxPos) (hash : UInt256) : ∃ after missing', reacceptTx env keys s (w, missing) hash = .ok (after, missing') ∧
      Marks (fun other n => other = hash ∧ Due keys s w hash n) w after ∧
      (∀ other, other ≠ hash → after.mapWallet other = w.mapWallet other) ∧
      (missing' = [] ↔ missing = [] ∧ ∀ n, Due keys s w hash n → IsMarked w hash n) := by
  -- Where nothing is due that is not marked, the wallet stays as it is.
  have stays : (∀ n, Due keys s w hash n → IsMarked w hash n) →
      Marks (fun other n => other = hash ∧ Due keys s w hash n) w w ∧
      (∀ other, other ≠ hash → w.mapWallet other = w.mapWallet other) ∧
      (missing = [] ↔ missing = [] ∧ ∀ n, Due keys s w hash n → IsMarked w hash n) := by
    intro done
    refine ⟨.refl fun other wtx n found _ due => ?_, fun _ _ => rfl, fun empty => ⟨empty, done⟩, And.left⟩
    obtain ⟨wtx', found', marked⟩ := done n due.2
    obtain rfl := Option.some.inj (found.symm.trans (due.1 ▸ found'))
    exact marked
  unfold reacceptTx
  dsimp only
  cases found : w.mapWallet hash with
  | none =>
      refine ⟨w, missing, rfl, stays fun n due => ?_⟩
      obtain ⟨⟨wtx, found', -⟩, -⟩ := due
      rw [found] at found'
      cases found'
  | some wtx =>
      dsimp only
      by_cases skip : wtx.skipped = true
      · rw [if_pos skip]
        refine ⟨w, missing, rfl, stays fun n due => ?_⟩
        obtain ⟨⟨wtx', found', active⟩, -⟩ := due
        obtain rfl := Option.some.inj (found.symm.trans found')
        rw [skip] at active
        cases active
      · rw [if_neg skip, inside.keyed found]
        cases read : s.txdb.fresh.readTxIndex hash with
        | none =>
            refine ⟨w, missing, rfl, stays fun n due => ?_⟩
            obtain ⟨-, ⟨txindex, read', -⟩, -⟩ := due
            rw [read] at read'
            cases read'
        | some txindex =>
            have aligned : txindex.vSpent.length = wtx.tx.vout.length :=
              sound.indexed _ (inside.known found) txindex (by rw [inside.keyed found]; exact read)
            dsimp only
            rw [if_neg (not_not.mpr aligned)]
            obtain ⟨same, flags, empty⟩ := @CWalletTx.noteSpent_foldl keys wtx txindex.vSpent.zipIdx []
            have noted_iff : ∀ n, (∃ entry ∈ txindex.vSpent.zipIdx, entry.2 = n ∧ CWalletTx.Noted keys wtx.tx entry) ↔
                Due keys s w hash n := by
              intro n
              constructor
              · rintro ⟨⟨pos, m⟩, listed, rfl, nonnull, txout, output, own⟩
                have at_m : txindex.vSpent[m]? = some pos := List.mem_zipIdx_iff_getElem?.mp listed
                refine ⟨⟨wtx, found, Bool.not_eq_true _ ▸ skip⟩, ⟨txindex, read, ?_⟩, wtx, txout, found, output, own⟩
                simp [CTxIndex.spends, at_m, nonnull]
              · rintro ⟨-, ⟨txindex', read', spends⟩, wtx', txout, found', output, own⟩
                obtain rfl := Option.some.inj (read.symm.trans read')
                obtain rfl := Option.some.inj (found.symm.trans found')
                unfold CTxIndex.spends at spends
                split at spends
                · cases spends
                · rename_i pos at_n
                  exact ⟨(pos, n), List.mem_zipIdx_iff_getElem?.mpr at_n, rfl, Bool.not_eq_true' _ ▸ spends, txout,
                    output, own⟩
            have all_iff : (∀ entry ∈ txindex.vSpent.zipIdx, CWalletTx.Noted keys wtx.tx entry →
                wtx.isSpent entry.2 = true) ↔ ∀ n, Due keys s w hash n → IsMarked w hash n := by
              constructor
              · intro all n due
                obtain ⟨entry, listed, rfl, noted⟩ := (noted_iff n).mpr due
                exact ⟨wtx, found, all entry listed noted⟩
              · intro all entry listed noted
                obtain ⟨wtx', found', marked⟩ := all entry.2 ((noted_iff entry.2).mp ⟨entry, listed, rfl, noted⟩)
                obtain rfl := Option.some.inj (found.symm.trans found')
                exact marked
            rw [all_iff] at empty
            generalize txindex.vSpent.zipIdx.foldl (CWalletTx.noteSpent keys) (wtx, []) = folded at same flags empty
            obtain ⟨noted, news⟩ := folded
            dsimp only at same flags empty
            cases news with
            | nil => exact ⟨w, missing, rfl, stays (empty.mp rfl).2⟩
            | cons first rest =>
                have ranged : noted.tx.getValueOut.isSome = true := same ▸ inside.ranged sound _ _ found
                obtain ⟨nCredit, cached, credited, sameTx, sameFlags⟩ := getCredit_spec keys w ranged
                dsimp only
                rw [credited]
                refine ⟨_, _, rfl, .set found (sameTx.trans same) fun n within => ?_, fun other apart => ?_, ?_⟩
                · rw [← noted_iff, ← flags n within]
                  change cached.vfSpent.getD n false = true ↔ _
                  rw [sameFlags]
                  rfl
                · rw [mapWallet_set, if_neg apart]
                · rw [List.append_eq_nil_iff, empty]
                  simp

theorem Due.congr {after : WalletCoins} {hash : UInt256} {n : Nat} (same : after.mapWallet hash = w.mapWallet hash) :
    Due keys s after hash n ↔ Due keys s w hash n := by
  unfold Due Own
  rw [same]

/-- What the loop over the wallet does. -/
theorem reacceptTxs_spec (keys : WalletKeys) (sound : SoundLedger env s U) {hashes : List UInt256}
    (distinct : hashes.Nodup) (inside : Inside env U w) (missing : List CDiskTxPos) :
    ∃ after missing', hashes.foldlM (reacceptTx env keys s) (w, missing) = .ok (after, missing') ∧
      Marks (fun hash n => hash ∈ hashes ∧ Due keys s w hash n) w after ∧
      (missing' = [] ↔ missing = [] ∧ ∀ hash ∈ hashes, ∀ n, Due keys s w hash n → IsMarked w hash n) := by
  induction hashes generalizing w missing with
  | nil => exact ⟨w, missing, rfl, .refl fun _ _ _ _ _ given => by simp at given, by simp⟩
  | cons hash rest ih =>
      obtain ⟨fresh, distinct⟩ := List.nodup_cons.mp distinct
      obtain ⟨middle, missing₁, done, marks, others, empty⟩ := reacceptTx_spec keys sound inside missing hash
      obtain ⟨after, missing₂, done', marks', empty'⟩ := ih distinct (inside.marks marks) missing₁
      have later : ∀ {other}, other ∈ rest → middle.mapWallet other = w.mapWallet other :=
        fun {other} listed => others other fun same => fresh (same ▸ listed)
      refine ⟨after, missing₂, by rw [List.foldlM_cons, done]; exact done',
        (marks.trans marks').congr fun other n => ?_, ?_⟩
      · rw [List.mem_cons, or_and_right]
        refine or_congr ⟨fun due => ⟨due.1, due.1 ▸ due.2⟩, fun due => ⟨due.1, due.1 ▸ due.2⟩⟩ ?_
        exact and_congr_right fun listed => Due.congr (later listed)
      · rw [empty', empty, and_assoc, List.forall_mem_cons]
        refine and_congr_right fun _ => and_congr_right fun _ => forall₂_congr fun other listed => ?_
        refine forall_congr' fun n => ?_
        rw [Due.congr (later listed), IsMarked, IsMarked, later listed]

/-! ## The scan -/

/-- Both wallets have the same transactions. -/
def SameTxs (before after : WalletCoins) : Prop :=
  ∀ hash, (after.mapWallet hash).map CWalletTx.tx = (before.mapWallet hash).map CWalletTx.tx

theorem SameTxs.isSome_eq {before after : WalletCoins} (same : SameTxs before after) (hash : UInt256) :
    (after.mapWallet hash).isSome = (before.mapWallet hash).isSome := by
  have equal := congrArg Option.isSome (same hash)
  rwa [Option.isSome_map, Option.isSome_map] at equal

theorem SameTxs.inside {after : WalletCoins} (same : SameTxs w after) (inside : Inside env U w) :
    Inside env U after := by
  have back : ∀ {hash wtx'}, after.mapWallet hash = some wtx' →
      ∃ wtx, w.mapWallet hash = some wtx ∧ wtx.tx = wtx'.tx := by
    intro hash wtx' found
    have equal := same hash
    rw [found] at equal
    exact Option.map_eq_some_iff.mp equal.symm
  refine ⟨fun found => ?_, fun found => ?_⟩
  · obtain ⟨wtx, found', equal⟩ := back found
    exact equal ▸ inside.known found'
  · obtain ⟨wtx, found', equal⟩ := back found
    exact equal ▸ inside.keyed found'

theorem WalletCoins.Marks.sameTxs {given : UInt256 → Nat → Prop} {after : WalletCoins} (marks : Marks given w after) :
    SameTxs w after := by
  intro hash
  cases found : w.mapWallet hash with
  | none => rw [marks.none_iff.mpr found]
  | some wtx =>
      obtain ⟨wtx', found', same, -⟩ := marks.flags found
      rw [found', Option.map_some, Option.map_some, same]

/-- Outputs that there are can be marked unspent. -/
theorem unspendOutputs_ok (keys : WalletKeys) {hash : UInt256} {wtx : CWalletTx} (entries : List (CTxOut × Nat))
    (found : w.mapWallet hash = some wtx) (there : ∀ entry ∈ entries, entry.2 < wtx.tx.vout.length) :
    ∃ after, entries.foldlM (unspendOutput keys hash) w = .ok after ∧ SameTxs w after := by
  induction entries generalizing w wtx with
  | nil => exact ⟨w, rfl, fun _ => rfl⟩
  | cons entry rest ih =>
      rw [List.foldlM_cons]
      unfold unspendOutput
      by_cases own : keys.isMine entry.1.scriptPubKey = true
      · obtain ⟨cleared, done, same, -⟩ := CWalletTx.setSpent_spec (there entry List.mem_cons_self) false
        obtain ⟨after, done', same'⟩ := @ih (w.set hash cleared) cleared (by rw [mapWallet_set, if_pos rfl])
          fun other listed => same.symm ▸ there other (List.mem_cons_of_mem _ listed)
        rw [if_pos own, found, Option.bind_some, CWalletTx.markUnspent, done]
        refine ⟨after, done', fun other => ?_⟩
        rw [same' other, mapWallet_set]
        split
        · rename_i here
          rw [here, found, Option.map_some, Option.map_some, same]
        · rfl
      · rw [if_neg own]
        exact ih found fun other listed => there other (List.mem_cons_of_mem _ listed)

/-- `AddToWallet` of a transaction that is not in the wallet inserts it. -/
theorem addToWallet_new (keys : WalletKeys) (sound : SoundLedger env s U) (inside : Inside env U w) {wtxIn : CWalletTx}
    (known : wtxIn.tx ∈ U) (absent : w.mapWallet (env.txHash wtxIn.tx) = none) (ids : List (BitVec 160)) :
    ∃ after, w.addToWallet env keys ids wtxIn = .ok after ∧
      SameTxs (w.set (env.txHash wtxIn.tx) wtxIn.markDirty) after := by
  have inserted : w.added env wtxIn = wtxIn.markDirty := (added_spec env w wtxIn).2.2 absent
  -- The default key changes nothing in `mapWallet`, so the argument is about any wallet with these entries.
  have entries : ∀ {middle : WalletCoins},
      middle.mapWallet = (w.set (env.txHash wtxIn.tx) wtxIn.markDirty).mapWallet →
      ∃ after, middle.walletUpdateSpent env keys wtxIn.markDirty.tx (wtxIn.hashBlock ≠ 0) = .ok after ∧
        SameTxs (w.set (env.txHash wtxIn.tx) wtxIn.markDirty) after := by
    intro middle same
    have lookup : middle.mapWallet (env.txHash wtxIn.tx) = some wtxIn.markDirty := by
      rw [same, mapWallet_set, if_pos rfl]
    have ranged : middle.Ranged := by
      intro hash wtx found
      rw [same, mapWallet_set] at found
      split at found
      · rw [← Option.some.inj found]
        exact sound.ranged _ known
      · exact inside.ranged sound _ _ found
    obtain ⟨spends, done, marks⟩ := spendInputs_marks keys wtxIn.markDirty.tx ranged
    have spendsTxs : SameTxs (w.set (env.txHash wtxIn.tx) wtxIn.markDirty) spends := fun hash => by
      rw [marks.sameTxs hash, same]
    unfold walletUpdateSpent
    rw [done]
    by_cases fBlock : decide (wtxIn.hashBlock ≠ 0) = true
    · obtain ⟨entry, found, sameTx, -⟩ := marks.flags lookup
      have there : ∀ placed ∈ wtxIn.markDirty.tx.vout.zipIdx, placed.2 < entry.tx.vout.length := fun placed listed =>
        sameTx.symm ▸ (List.getElem?_eq_some_iff.mp (List.mem_zipIdx_iff_getElem?.mp listed)).1
      obtain ⟨after, done', same'⟩ := unspendOutputs_ok keys wtxIn.markDirty.tx.vout.zipIdx found there
      refine ⟨after, ?_, fun hash => (same' hash).trans (spendsTxs hash)⟩
      simp only [fBlock, if_true]
      exact done'
    · refine ⟨spends, ?_, spendsTxs⟩
      simp only [fBlock]
      rfl
  unfold addToWallet
  dsimp only
  rw [inserted]
  refine entries ?_
  split
  · exact replaceDefaultKey_mapWallet _ _ _ _
  · rfl

/-- `AddToWalletIfInvolvingMe` without update: the transaction is added, or what it spends is marked. -/
theorem addToWalletIfInvolvingMe_spec (keys : WalletKeys) (sound : SoundLedger env s U) (inside : Inside env U w)
    {tx : CTransaction} (known : tx ∈ U) (block : CBlock) (ids : List (BitVec 160)) :
    ∃ after, w.addToWalletIfInvolvingMe env keys ids tx (some block) false = .ok after ∧ Inside env U after ∧
      (∀ hash, (w.mapWallet hash).isSome = true → (after.mapWallet hash).isSome = true) ∧
      (PooledCoins.isAdded env keys w tx false = true →
        w.mapWallet (env.txHash tx) = none ∧ (after.mapWallet (env.txHash tx)).isSome = true) ∧
      (PooledCoins.isAdded env keys w tx false = false → Marks (fun hash n =>
        w.mapWallet (env.txHash tx) = none ∧ WalletCoins.Spends tx hash n ∧ Own keys w hash n) w after) := by
  have sameTx : (CWalletTx.ofBlock env tx (some block)).tx = tx := by
    unfold CWalletTx.ofBlock CWalletTx.setMerkleBranch
    dsimp only
    split <;> rfl
  unfold addToWalletIfInvolvingMe PooledCoins.isAdded
  cases found : w.mapWallet (env.txHash tx) with
  | some wtx =>
      refine ⟨w, by simp, inside, fun _ => id, by simp, fun _ => .refl ?_⟩
      rintro hash wtx' n - - ⟨absent, -⟩
      cases absent
  | none =>
      have absent : w.mapWallet (env.txHash (CWalletTx.ofBlock env tx (some block)).tx) = none := by rwa [sameTx]
      obtain ⟨added, done, same⟩ := addToWallet_new keys sound inside (sameTx.symm ▸ known) absent ids
      have addedCase : Inside env U added ∧
          (∀ hash, (w.mapWallet hash).isSome = true → (added.mapWallet hash).isSome = true) ∧
          (added.mapWallet (env.txHash tx)).isSome = true := by
        rw [sameTx] at same
        have grown : Inside env U (w.set (env.txHash tx) (CWalletTx.ofBlock env tx (some block)).markDirty) := by
          refine ⟨fun {hash wtx} found' => ?_, fun {hash wtx} found' => ?_⟩
          · rw [mapWallet_set] at found'
            split at found'
            · rw [← Option.some.inj found']
              exact sameTx.symm ▸ known
            · exact inside.known found'
          · rw [mapWallet_set] at found'
            split at found'
            · rename_i here
              rw [← Option.some.inj found', here]
              exact congrArg env.txHash sameTx
            · exact inside.keyed found'
        refine ⟨same.inside grown, fun hash some_ => ?_, ?_⟩
        · rw [same.isSome_eq, mapWallet_set]
          split
          · rfl
          · exact some_
        · rw [same.isSome_eq, mapWallet_set, if_pos rfl]
          rfl
      dsimp only
      simp only [Option.isSome_none, Bool.false_and, Bool.false_or, Bool.false_eq_true, if_false]
      cases mine : isMineTx keys tx with
      | true =>
          refine ⟨added, by simpa using done, addedCase.1, addedCase.2.1, fun _ => ⟨trivial, addedCase.2.2⟩, by simp⟩
      | false =>
          have funded : (w.getDebitTx keys tx).isSome = true := by
            refine sound.funded tx known (w.debitOf keys) fun txin _ => ?_
            rw [debitOf]
            cases spent : w.mapWallet txin.prevout.hash with
            | none => exact .inl rfl
            | some prev =>
                dsimp only
                cases output : prev.tx.vout[txin.prevout.n.toNat]? with
                | none => exact .inl rfl
                | some txout =>
                    dsimp only
                    split
                    · exact .inr ⟨prev.tx, inside.known spent, inside.keyed spent, txout, output, rfl⟩
                    · exact .inl rfl
          obtain ⟨nDebit, debit⟩ := Option.isSome_iff_exists.mp funded
          simp only [debit, Bool.false_eq_true, if_false, Bool.false_or, Option.any_some, decide_eq_true_eq]
          by_cases positive : 0 < nDebit
          · rw [if_pos positive]
            exact ⟨added, done, addedCase.1, addedCase.2.1, fun _ => ⟨trivial, addedCase.2.2⟩, by simp [positive]⟩
          · rw [if_neg positive]
            obtain ⟨after, spends, marks⟩ := spendInputs_marks keys tx (inside.ranged sound)
            refine ⟨after, ?_, inside.marks marks, fun hash => (marks.some_iff hash).ge, by simp [positive],
              fun _ => ?_⟩
            · rw [walletUpdateSpent, spends]
              rfl
            · simpa using marks

/-- What a part of a scan does, which reads some transactions: it grows, and where it adds nothing, it marks the own
outputs that are spent by what it reads and what is not in the wallet. -/
structure Scanned (env : Env) (keys : WalletKeys) (U : Set CTransaction) (reads : Int64 → CTransaction → Prop)
    (before after : Scan (Except PooledCoins PooledCoins)) (w w' : PooledCoins) : Prop where
  wallet : after.wallet = .ok w'
  inside : Inside env U w'.coins
  keeps : ∀ hash, (w.coins.mapWallet hash).isSome = true → (w'.coins.mapWallet hash).isSome = true
  counts : before.ret ≤ after.ret
  grows : before.ret < after.ret → ∃ hash, w.coins.mapWallet hash = none ∧ (w'.coins.mapWallet hash).isSome = true
  birthday : after.ret = before.ret → after.nTimeFirstKey = before.nTimeFirstKey
  marks : after.ret = before.ret → Marks (fun hash n => (∃ tx, reads before.nTimeFirstKey tx ∧
    w.coins.mapWallet (env.txHash tx) = none ∧ WalletCoins.Spends tx hash n) ∧ Own keys w.coins hash n) w.coins w'.coins

namespace Scanned

variable {reads more : Int64 → CTransaction → Prop} {first second third : Scan (Except PooledCoins PooledCoins)}
  {a b c : PooledCoins}

theorem refl (ok : first.wallet = .ok a) (inside : Inside env U a.coins) :
    Scanned env keys U (fun _ _ => False) first first a a where
  wallet := ok
  inside := inside
  keeps _ := id
  counts := le_rfl
  grows less := absurd less (lt_irrefl _)
  birthday _ := rfl
  marks _ := .refl fun _ _ _ _ _ given => by simp at given

theorem trans (left : Scanned env keys U reads first second a b) (right : Scanned env keys U more second third b c) :
    Scanned env keys U (fun time tx => reads time tx ∨ more time tx) first third a c where
  wallet := right.wallet
  inside := right.inside
  keeps hash there := right.keeps hash (left.keeps hash there)
  counts := left.counts.trans right.counts
  grows less := by
    rcases Nat.lt_or_ge first.ret second.ret with early | late
    · obtain ⟨hash, absent, present⟩ := left.grows early
      exact ⟨hash, absent, right.keeps hash present⟩
    · obtain ⟨hash, absent, present⟩ := right.grows (by omega)
      refine ⟨hash, ?_, present⟩
      by_contra there
      have kept := left.keeps hash (Option.isSome_iff_ne_none.mpr there)
      rw [absent] at kept
      cases kept
  birthday same := by
    have counts := left.counts
    have counts' := right.counts
    rw [right.birthday (by omega), left.birthday (by omega)]
  marks same := by
    have counts := left.counts
    have counts' := right.counts
    have marks := left.marks (by omega)
    refine (marks.trans (right.marks (by omega))).congr fun hash n => ?_
    rw [left.birthday (by omega), marks.own_iff, ← or_and_right]
    refine and_congr_left fun _ => ?_
    rw [← exists_or]
    refine exists_congr fun tx => ?_
    rw [marks.none_iff, ← or_and_right]

/-- What was read before does not matter, and the transactions that are read count at the start only. -/
theorem congr {start : Scan (Except PooledCoins PooledCoins)} (scanned : Scanned env keys U reads start second a b)
    (ret : start.ret = first.ret) (birthday : start.nTimeFirstKey = first.nTimeFirstKey)
    (same : ∀ tx, reads first.nTimeFirstKey tx ↔ more first.nTimeFirstKey tx) :
    Scanned env keys U more first second a b where
  wallet := scanned.wallet
  inside := scanned.inside
  keeps := scanned.keeps
  counts := ret ▸ scanned.counts
  grows := ret ▸ scanned.grows
  birthday := birthday ▸ ret ▸ scanned.birthday
  marks unchanged := by
    refine (scanned.marks (ret ▸ unchanged)).congr fun hash n => ?_
    rw [birthday]
    simp only [same]

end Scanned

/-- One call of `AddToWalletIfInvolvingMe`. -/
theorem offerTx_scanned (keys : WalletKeys) (sound : SoundLedger env s U)
    {scan : Scan (Except PooledCoins PooledCoins)} {w : PooledCoins} (ok : scan.wallet = .ok w)
    (inside : Inside env U w.coins) (block : CBlock) {tx : CTransaction} (known : tx ∈ U) :
    ∃ w', Scanned env keys U (fun _ read => read = tx) scan
      (scan.offerTx (addUnlessThrown env keys) false block tx) w w' := by
  obtain ⟨after, done, inside', keeps, added, unadded⟩ :=
    addToWalletIfInvolvingMe_spec keys sound inside known block (w.pool.map PoolKey.id)
  have offer : addUnlessThrown env keys scan.wallet tx block false =
      ⟨.ok (PooledCoins.addToWalletIfInvolvingMe env keys w tx block false).wallet,
        PooledCoins.isAdded env keys w.coins tx false,
        (PooledCoins.addToWalletIfInvolvingMe env keys w tx block false).generated⟩ := by
    rw [ok, addUnlessThrown]
    dsimp only
    rw [done]
    rfl
  have coins : (PooledCoins.addToWalletIfInvolvingMe env keys w tx block false).wallet.coins = after := by
    unfold PooledCoins.addToWalletIfInvolvingMe
    dsimp only
    rw [done]
    rfl
  refine ⟨(PooledCoins.addToWalletIfInvolvingMe env keys w tx block false).wallet, ?_⟩
  unfold Scan.offerTx
  rw [offer]
  cases verdict : PooledCoins.isAdded env keys w.coins tx false with
  | true =>
      obtain ⟨absent, present⟩ := added verdict
      exact ⟨rfl, coins.symm ▸ inside', fun hash there => coins.symm ▸ keeps hash there, by simp,
        fun _ => ⟨env.txHash tx, absent, coins.symm ▸ present⟩, by simp, by simp⟩
  | false =>
      have none : (PooledCoins.addToWalletIfInvolvingMe env keys w tx block false).generated = [] := by
        unfold PooledCoins.addToWalletIfInvolvingMe
        rw [verdict]
        rfl
      refine ⟨rfl, coins.symm ▸ inside', fun hash there => coins.symm ▸ keeps hash there, by simp, by simp,
        fun _ => by rw [none]; rfl, fun _ => ?_⟩
      rw [coins]
      refine (unadded verdict).congr fun hash n => ?_
      simp only [exists_eq_left, and_assoc]

/-- The inner loop. -/
theorem offerTxs_scanned (keys : WalletKeys) (sound : SoundLedger env s U)
    {scan : Scan (Except PooledCoins PooledCoins)} {w : PooledCoins} (ok : scan.wallet = .ok w)
    (inside : Inside env U w.coins) (block : CBlock) {vtx : List CTransaction} (known : ∀ tx ∈ vtx, tx ∈ U) :
    ∃ w', Scanned env keys U (fun _ tx => tx ∈ vtx) scan
      (vtx.foldl (Scan.offerTx (addUnlessThrown env keys) false block) scan) w w' := by
  induction vtx generalizing scan w with
  | nil => 
      refine ⟨w, ?_⟩
      simpa using Scanned.refl ok inside
  | cons tx rest ih =>
      obtain ⟨middle, step⟩ := offerTx_scanned keys sound ok inside block (known tx List.mem_cons_self)
      obtain ⟨after, steps⟩ := ih step.wallet step.inside fun other listed =>
        known other (List.mem_cons_of_mem _ listed)
      refine ⟨after, ?_⟩
      simpa [List.mem_cons] using step.trans steps

/-- A transaction of the chain that a scan with a birthday reads. -/
def ScanReads (s : Node) (pindexes : List CBlockIndex) (nTimeFirstKey : Int64) (tx : CTransaction) : Prop :=
  ∃ pindex ∈ pindexes, ¬BeforeBirthday nTimeFirstKey pindex ∧
    ∃ block, s.files.readBlock pindex.nFile pindex.nBlockPos = some block ∧ tx ∈ block.vtx

theorem visit_scanned (keys : WalletKeys) (sound : SoundLedger env s U)
    {scan : Scan (Except PooledCoins PooledCoins)} {w : PooledCoins} (ok : scan.wallet = .ok w)
    (inside : Inside env U w.coins) (pindex : CBlockIndex) :
    ∃ w', Scanned env keys U (ScanReads s [pindex]) scan
      (scan.visit (addUnlessThrown env keys) false s pindex) w w' := by
  have reads_iff : ∀ tx, ScanReads s [pindex] scan.nTimeFirstKey tx ↔
      ¬BeforeBirthday scan.nTimeFirstKey pindex ∧
        ∃ block, s.files.readBlock pindex.nFile pindex.nBlockPos = some block ∧ tx ∈ block.vtx := by
    intro tx
    simp only [ScanReads, List.mem_singleton, exists_eq_left]
  unfold Scan.visit
  split
  · rename_i early
    refine ⟨w, (Scanned.refl ok inside).congr rfl rfl fun tx => ?_⟩
    rw [reads_iff]
    exact ⟨False.elim, fun read => read.1 early⟩
  · rename_i late
    unfold Scan.readBlock
    dsimp only
    let noted : Scan (Except PooledCoins PooledCoins) := { scan with reads := scan.reads ++ [pindex] }
    have ok' : noted.wallet = .ok w := ok
    cases onDisk : s.files.readBlock pindex.nFile pindex.nBlockPos with
    | none =>
        refine ⟨w, (Scanned.refl ok' inside).congr rfl rfl fun tx => ?_⟩
        rw [reads_iff, onDisk]
        simp
    | some block =>
        obtain ⟨w', scanned⟩ := offerTxs_scanned keys sound ok' inside block (sound.onDisk onDisk)
        refine ⟨w', scanned.congr rfl rfl fun tx => ?_⟩
        rw [reads_iff, onDisk]
        simp [late]

theorem visits_scanned (keys : WalletKeys) (sound : SoundLedger env s U)
    {scan : Scan (Except PooledCoins PooledCoins)} {w : PooledCoins} (ok : scan.wallet = .ok w)
    (inside : Inside env U w.coins) (pindexes : List CBlockIndex) :
    ∃ w', Scanned env keys U (ScanReads s pindexes) scan
      (pindexes.foldl (Scan.visit (addUnlessThrown env keys) false s) scan) w w' := by
  induction pindexes generalizing scan w with
  | nil => exact ⟨w, (Scanned.refl ok inside).congr rfl rfl fun tx => by simp [ScanReads]⟩
  | cons pindex rest ih =>
      obtain ⟨middle, step⟩ := visit_scanned keys sound ok inside pindex
      obtain ⟨after, steps⟩ := ih step.wallet step.inside
      refine ⟨after, (step.trans steps).congr rfl rfl fun tx => ?_⟩
      simp only [ScanReads, List.mem_cons, exists_eq_or_imp, List.not_mem_nil, false_and, exists_false, or_false,
        exists_eq_left]

/-! ## The rounds -/

/-- The entries that the scan of a round goes through. -/
def scanned (s : Node) : List CBlockIndex := alongNext s s.pindexBest.length s.pindexGenesisBlock

/-- A round marks an output that was not marked. -/
def Finds (keys : WalletKeys) (s : Node) (w : WalletCoins) : Prop :=
  ∃ hash n, Due keys s w hash n ∧ ¬IsMarked w hash n

/-- What a round does. It is the last one unless it adds a transaction; and where it is the last one, it marks what is
due, and what is spent by a transaction that its scan reads and that is not in the wallet. -/
structure Rounded (env : Env) (keys : WalletKeys) (s : Node) (U : Set CTransaction) (before after : ReacceptState)
    (fRepeat : Bool) : Prop where
  inside : Inside env U after.wallet.coins
  keeps : ∀ hash, (before.wallet.coins.mapWallet hash).isSome = true → (after.wallet.coins.mapWallet hash).isSome = true
  grows : fRepeat = true → ∃ hash, before.wallet.coins.mapWallet hash = none ∧
    (after.wallet.coins.mapWallet hash).isSome = true
  marks : fRepeat = false → Marks (fun hash n => Due keys s before.wallet.coins hash n ∨
    Finds keys s before.wallet.coins ∧ (∃ tx, ScanReads s (scanned s) before.nTimeFirstKey tx ∧
      before.wallet.coins.mapWallet (env.txHash tx) = none ∧ WalletCoins.Spends tx hash n) ∧
      Own keys before.wallet.coins hash n) before.wallet.coins after.wallet.coins

theorem reacceptRound_spec (keys : WalletKeys) (sound : SoundLedger env s U) {state : ReacceptState}
    (inside : Inside env U state.wallet.coins) {hashes : List UInt256} (order : MapOrder state.wallet.coins hashes) :
    ∃ after fRepeat, reacceptRound env keys s hashes state = .ok (after, fRepeat) ∧
      Rounded env keys s U state after fRepeat := by
  have distinct : hashes.Nodup := order.sorted.imp fun less => (BitVec.ne_of_lt less)
  obtain ⟨passed, missing, done, marks, empty⟩ := reacceptTxs_spec keys sound distinct inside []
  have listed : ∀ {hash n}, Due keys s state.wallet.coins hash n → hash ∈ hashes := by
    rintro hash n ⟨⟨wtx, found, -⟩, -⟩
    exact (order.complete hash).mpr (by rw [found]; rfl)
  have marks : Marks (Due keys s state.wallet.coins) state.wallet.coins passed :=
    marks.congr fun hash n => ⟨And.right, fun due => ⟨listed due, due⟩⟩
  have finds_iff : missing = [] ↔ ¬Finds keys s state.wallet.coins := by
    rw [empty]
    constructor
    · rintro ⟨-, all⟩ ⟨hash, n, due, unmarked⟩
      exact unmarked (all hash (listed due) n due)
    · refine fun quiet => ⟨rfl, fun hash _ n due => ?_⟩
      by_contra unmarked
      exact quiet ⟨hash, n, due, unmarked⟩
  unfold reacceptRound
  rw [done]
  cases missing with
  | nil =>
      have quiet := finds_iff.mp rfl
      refine ⟨_, false, rfl, inside.marks marks, fun hash => (marks.some_iff hash).ge, by simp, fun _ => ?_⟩
      exact marks.congr fun hash n => by simp [quiet]
  | cons pos missing =>
      have busy : Finds keys s state.wallet.coins := by
        by_contra quiet
        exact List.cons_ne_nil _ _ (finds_iff.mpr quiet)
      dsimp only
      obtain ⟨w', scan⟩ : ∃ w', Scanned env keys U (ScanReads s (scanned s))
          ⟨.ok { state.wallet with coins := passed }, state.nTimeFirstKey, 0, [], []⟩
          (scanForWalletTransactions (addUnlessThrown env keys) s s.pindexGenesisBlock false
            (.ok { state.wallet with coins := passed }) state.nTimeFirstKey) { state.wallet with coins := passed } w' :=
        visits_scanned keys sound rfl (inside.marks marks) (scanned s)
      generalize scanForWalletTransactions (addUnlessThrown env keys) s s.pindexGenesisBlock false
        (.ok { state.wallet with coins := passed }) state.nTimeFirstKey = result at scan
      rw [scan.wallet]
      refine ⟨_, _, rfl, scan.inside, fun hash there => scan.keeps hash ((marks.some_iff hash).trans there),
        fun again => ?_, fun final => ?_⟩
      · obtain ⟨hash, absent, present⟩ := scan.grows (Nat.pos_of_ne_zero (of_decide_eq_true again))
        exact ⟨hash, marks.none_iff.mp absent, present⟩
      · have unchanged : result.ret = 0 := not_not.mp (of_decide_eq_false final)
        refine (marks.trans (scan.marks unchanged)).congr fun hash n => or_congr_right ?_
        rw [marks.own_iff]
        simp only [marks.none_iff, busy, true_and]

/-- An output that the index has as spent stays unmarked only where the loop skips the transaction. -/
def LeavesNone (env : Env) (keys : WalletKeys) (s : Node) (state : ReacceptState) : Prop :=
  ∀ hash wtx n, state.wallet.coins.mapWallet hash = some wtx → wtx.skipped = true → s.txdb.Spent hash n →
    Own keys state.wallet.coins hash n → wtx.isSpent n = true ∨
      Finds keys s state.wallet.coins ∧ ∃ tx, ScanReads s (scanned s) state.nTimeFirstKey tx ∧
        state.wallet.coins.mapWallet (env.txHash tx) = none ∧ WalletCoins.Spends tx hash n

/-- Every map has an order. -/
theorem mapOrder_exists (w : WalletCoins) : ∃ hashes, MapOrder w hashes := by
  let present := (Set.toFinite {hash | (w.mapWallet hash).isSome = true}).toFinset
  have sorted : (present.toList.mergeSort fun a b => decide (a ≤ b)).Pairwise fun a b => decide (a ≤ b) = true := by
    refine List.pairwise_mergeSort (fun a b c less less' => ?_) (fun a b => ?_) _
    · rw [decide_eq_true_eq] at less less' ⊢
      exact BitVec.le_trans less less'
    · rw [Bool.or_eq_true, decide_eq_true_eq, decide_eq_true_eq]
      exact BitVec.le_total a b
  have distinct : (present.toList.mergeSort fun a b => decide (a ≤ b)).Nodup :=
    (List.mergeSort_perm _ _).nodup_iff.mpr present.nodup_toList
  refine ⟨_, (sorted.and distinct).imp fun {a b} less => ?_, fun hash => ?_⟩
  · rw [decide_eq_true_eq] at less
    exact lt_of_le_of_ne (BitVec.le_def.mp less.1) fun same => less.2 (BitVec.toNat_inj.mp same)
  · simp [present]

/-- A map has one order. -/
theorem MapOrder.unique {hashes other : List UInt256} (first : MapOrder w hashes) (second : MapOrder w other) :
    hashes = other := by
  have less_ne : ∀ {a b : UInt256}, a < b → a ≠ b := fun less => BitVec.ne_of_lt less
  have perm : hashes.Perm other :=
    (List.perm_ext_iff_of_nodup (first.sorted.imp less_ne) (second.sorted.imp less_ne)).mpr fun hash => (first.complete hash).trans (second.complete hash).symm
  exact perm.eq_of_pairwise (fun a b _ _ less less' => absurd less' (BitVec.lt_asymm less)) first.sorted second.sorted

/-- There is one run from a state. -/
theorem Reaccepts.unique {state begins after begins' after' : ReacceptState}
    (first : Reaccepts env keys s state begins after) (second : Reaccepts env keys s state begins' after') :
    begins = begins' ∧ after = after' := by
  induction first with
  | last order round =>
      cases second with
      | last order' round' =>
          obtain rfl := order.unique order'
          cases round.symm.trans round'
          exact ⟨rfl, rfl⟩
      | again order' round' rest =>
          obtain rfl := order.unique order'
          cases round.symm.trans round'
  | again order round rest ih =>
      cases second with
      | last order' round' =>
          obtain rfl := order.unique order'
          cases round.symm.trans round'
      | again order' round' rest' =>
          obtain rfl := order.unique order'
          cases round.symm.trans round'
          exact ih rest'

/-- The call returns, from every state; the last round does what `Rounded` says of it. -/
theorem reaccepts_exists (keys : WalletKeys) (sound : SoundLedger env s U) (state : ReacceptState)
    (inside : Inside env U state.wallet.coins) : ∃ begins after, Reaccepts env keys s state begins after ∧
      Inside env U begins.wallet.coins ∧ Rounded env keys s U begins after false := by
  -- Each further round has an entry more, and there are only so many hashes.
  induction missing : {hash | state.wallet.coins.mapWallet hash = none}.ncard using Nat.strong_induction_on
    generalizing state with
  | _ missing_ ih =>
      obtain ⟨hashes, order⟩ := mapOrder_exists state.wallet.coins
      obtain ⟨after, fRepeat, round, rounded⟩ := reacceptRound_spec keys sound inside order
      cases fRepeat with
      | false => exact ⟨state, after, .last order round, inside, rounded⟩
      | true =>
          have fewer : {hash | after.wallet.coins.mapWallet hash = none}.ncard < missing_ := by
            rw [← missing]
            obtain ⟨hash, absent, present⟩ := rounded.grows rfl
            refine Set.ncard_lt_ncard ⟨fun other gone => ?_, fun all => ?_⟩ (Set.toFinite _)
            · by_contra there
              have kept := rounded.keeps other (Option.isSome_iff_ne_none.mpr there)
              rw [gone] at kept
              cases kept
            · have gone : after.wallet.coins.mapWallet hash = none := all absent
              rw [gone] at present
              cases present
          obtain ⟨begins, final, rest, inside', last⟩ := ih _ fewer after rounded.inside rfl
          exact ⟨begins, final, .again order round rest, inside', last⟩

/-- What the last round leaves: every own output that the index has as spent is marked exactly when no such output is
left to a transaction that the round skips. -/
theorem Rounded.marked_iff {begins after : ReacceptState} (rounded : Rounded env keys s U begins after false) :
    after.wallet.coins.MarkedBy keys s.txdb.Spent ↔ LeavesNone env keys s begins := by
  have marks := rounded.marks rfl
  constructor
  · intro marked hash wtx n found skip spent own
    obtain ⟨wtx', found', same, flags⟩ := marks.flags found
    obtain ⟨wtx'', txout, found'', output, mine⟩ := own
    obtain rfl := Option.some.inj (found.symm.trans found'')
    have within := (List.getElem?_eq_some_iff.mp output).1
    have set := marked hash wtx' n txout found' (same.symm ▸ output) mine spent
    rcases (flags n within).mp set with already | ⟨⟨wtx'', found'', active⟩, -⟩ | ⟨busy, read, -⟩
    · exact .inl already
    · obtain rfl := Option.some.inj (found.symm.trans found'')
      rw [skip] at active
      cases active
    · exact .inr ⟨busy, read⟩
  · intro settled hash wtx' n txout found output mine spent
    obtain ⟨wtx, found', same, flags⟩ := marks.back found
    rw [same] at output
    have within := (List.getElem?_eq_some_iff.mp output).1
    have own : Own keys begins.wallet.coins hash n := ⟨wtx, txout, found', output, mine⟩
    refine (flags n within).mpr ?_
    by_cases skip : wtx.skipped = true
    · rcases settled hash wtx n found' skip spent own with already | ⟨busy, read⟩
      · exact .inl already
      · exact .inr (.inr ⟨busy, read, own⟩)
    · exact .inr (.inl ⟨⟨wtx, found', Bool.not_eq_true _ ▸ skip⟩, spent, own⟩)

/-- `ReacceptWalletTransactions` returns, and every own output that the index has as spent is marked then exactly when
no such output is left to a transaction that the last round skips. -/
theorem reaccept_marks_iff (keys : WalletKeys) (sound : SoundLedger env s U) (state : ReacceptState)
    (inside : Inside env U state.wallet.coins) : (∃ begins after, Reaccepts env keys s state begins after) ∧
      ∀ begins after, Reaccepts env keys s state begins after →
        (after.wallet.coins.MarkedBy keys s.txdb.Spent ↔ LeavesNone env keys s begins) := by
  obtain ⟨begins, after, run, -, rounded⟩ := reaccepts_exists keys sound state inside
  refine ⟨⟨begins, after, run⟩, fun begins' after' run' => ?_⟩
  obtain ⟨rfl, rfl⟩ := run.unique run'
  exact rounded.marked_iff

end Rounds

/-! ## A coinstake with two outputs -/

/-- A coinstake that splits the stake. -/
def splitStake : CTransaction :=
  ⟨1, 0, [⟨⟨7, 0⟩, [], 0xffffffff⟩], [⟨0, []⟩, ⟨coin, [1]⟩, ⟨coin, [1]⟩], 1⟩

theorem splitStakePos_nullUnique : (1 : UInt32) = 0xffffffff → (0 : UInt32) = 0 ∧ (0 : UInt32) = 0 := by decide

/-- The index has both outputs as spent. -/
def splitStakeNode : Node :=
  { Node.initial ⟨fun _ => none, fun _ _ => none⟩ (fun _ => true) 0 with
    txdb := ⟨fun key => if key = .tx 1 then
        some (.txIndex ⟨⟨1, 0, 0, splitStakePos_nullUnique⟩, [.null, ⟨1, 8, 16, by decide⟩, ⟨1, 8, 24, by decide⟩]⟩)
      else none, none, fun _ => true, 0⟩ }

/-- A wallet that knows of one of the two. -/
def splitStakeState : ReacceptState where
  wallet :=
    { coins := ⟨fun hash => if hash = 1 then some { CWalletTx.ofTx splitStake with vfSpent := [false, true, false] }
        else none, none, fun _ => false, fun _ => 0⟩
      pool := [] }
  nTimeFirstKey := 0

theorem splitStake_order : MapOrder splitStakeState.wallet.coins [1] where
  sorted := List.pairwise_singleton _ _
  complete hash := by
    simp [splitStakeState]

theorem splitStake_sound : SoundLedger (.labelled false) splitStakeNode {splitStake} where
  ranged tx known := by
    rw [Set.mem_singleton_iff.mp known]
    decide
  indexed tx known txindex read := by
    rw [Set.mem_singleton_iff.mp known] at read ⊢
    cases read
    rfl
  funded tx known amount from_ := by
    rw [Set.mem_singleton_iff.mp known] at from_ ⊢
    rcases from_ ⟨⟨7, 0⟩, [], 0xffffffff⟩ (by decide) with zero | ⟨prev, known', same, -⟩
    · change (sumMoney [amount ⟨⟨7, 0⟩, [], 0xffffffff⟩]).isSome = true
      rw [zero]
      decide
    · rw [Set.mem_singleton_iff.mp known'] at same
      exact absurd same (by decide)
  onDisk read := by cases read

theorem splitStake_inside : Inside (.labelled false) {splitStake} splitStakeState.wallet.coins where
  known {hash wtx} found := by
    change (if hash = 1 then _ else _) = _ at found
    split at found
    · rw [← Option.some.inj found]
      rfl
    · cases found
  keyed {hash wtx} found := by
    change (if hash = 1 then _ else _) = _ at found
    split at found
    · rename_i here
      rw [← Option.some.inj found, here]
      rfl
    · cases found

/-- The condition, where it is not met. -/
theorem reaccept_marks_iff_splitStake :
    (∃ begins after, Reaccepts (.labelled false) .all splitStakeNode splitStakeState begins after) ∧
      ∀ begins after, Reaccepts (.labelled false) .all splitStakeNode splitStakeState begins after →
        (after.wallet.coins.MarkedBy .all splitStakeNode.txdb.Spent ↔
          LeavesNone (.labelled false) .all splitStakeNode begins) :=
  reaccept_marks_iff .all splitStake_sound splitStakeState splitStake_inside

/-- The other output is never marked. -/
theorem split_stake_unmarked : ∃ after, Reaccepts (.labelled false) .all splitStakeNode splitStakeState
    splitStakeState after ∧ ¬after.wallet.coins.MarkedBy .all splitStakeNode.txdb.Spent := by
  refine ⟨splitStakeState, .last splitStake_order rfl, fun marked => ?_⟩
  have set := marked 1 _ 2 ⟨coin, [1]⟩ rfl rfl rfl ⟨_, rfl, rfl⟩
  exact absurd set (by decide)

end InfiniteRicks
