import InfiniteRicks.RawSigning

/-!
# What the merge reads and keeps

Merging changes one `scriptSig` at a time, and an input verifies or not by its own. So the loop of
`signrawtransaction` is right about the transaction that it returns, where it returns one: that is where
every variant has an input for each known one of the first.
-/

namespace InfiniteRicks

variable {crypto : SignCrypto}

/-! ## One input -/

/-- A transaction with other `scriptSig`s in one input at most. -/
structure ChangedAt (i : Nat) (after before : CTransaction) : Prop where
  unsigned : SameUnsigned after before
  others : ∀ j, j ≠ i → after.scriptSigAt j = before.scriptSigAt j

namespace ChangedAt

variable {i : Nat}

theorem refl (tx : CTransaction) : ChangedAt i tx tx := ⟨.refl tx, fun _ _ => rfl⟩

theorem trans {after middle before : CTransaction} (later : ChangedAt i after middle)
    (first : ChangedAt i middle before) : ChangedAt i after before :=
  ⟨later.unsigned.trans first.unsigned, fun j other => (later.others j other).trans (first.others j other)⟩

theorem setScriptSig (tx : CTransaction) (scriptSig : CScript) : ChangedAt i (tx.setScriptSig i scriptSig) tx :=
  ⟨tx.setScriptSig_same i scriptSig, fun j other => by rw [scriptSigAt_setScriptSig, if_neg (Ne.symm other)]⟩

theorem combineVariant (prevPubKey : CScript) (tx txv : CTransaction) :
    ChangedAt i (combineVariant crypto prevPubKey i tx txv) tx := by
  unfold InfiniteRicks.combineVariant
  split
  · exact setScriptSig tx _
  · exact refl tx

theorem foldl_combineVariant (prevPubKey : CScript) (txVariants : List CTransaction) (tx : CTransaction) :
    ChangedAt i (txVariants.foldl (InfiniteRicks.combineVariant crypto prevPubKey i) tx) tx := by
  induction txVariants generalizing tx with
  | nil => exact refl tx
  | cons txv rest ih => exact (ih _).trans (combineVariant prevPubKey tx txv)

end ChangedAt

/-- Every variant has an input at a place. -/
abbrev Reach (txVariants : List CTransaction) (i : Nat) : Prop := ∀ txv ∈ txVariants, i < txv.vin.length

/-- The merge of the variants is that of `CombineTransactions` where each of them has the input, and reads out of
range where one has not. -/
theorem foldlM_mergeVariant (prevPubKey : CScript) (i : Nat) (txVariants : List CTransaction) (tx : CTransaction) :
    (Reach txVariants i → txVariants.foldlM (mergeVariant crypto prevPubKey i) tx =
      .ok (txVariants.foldl (combineVariant crypto prevPubKey i) tx)) ∧
    (¬Reach txVariants i → txVariants.foldlM (mergeVariant crypto prevPubKey i) tx = .error .outOfRange) := by
  induction txVariants generalizing tx with
  | nil => exact ⟨fun _ => rfl, fun short => absurd (fun _ member => absurd member List.not_mem_nil) short⟩
  | cons txv rest ih =>
      rw [List.foldlM_cons, List.foldl_cons, Reach, List.forall_mem_cons, mergeVariant, combineVariant]
      by_cases inside : i < txv.vin.length
      · obtain ⟨all, short⟩ := ih (mergeScript crypto prevPubKey i tx txv.vin[i].scriptSig)
        rw [List.getElem?_eq_getElem inside]
        exact ⟨fun reach => all reach.2, fun fails => short fun reach => fails ⟨inside, reach⟩⟩
      · rw [List.getElem?_eq_none (not_lt.mp inside)]
        exact ⟨fun reach => absurd reach.1 inside, fun _ => rfl⟩

namespace SignCall

variable (call : SignCall crypto) (txVariants : List CTransaction)

theorem signInput_changed (prevPubKey : CScript) (i : Nat) (tx : CTransaction) :
    ChangedAt i (call.signInput prevPubKey i tx) tx := by
  rw [signInput_eq]
  exact .setScriptSig tx _

/-- The transaction with one input signed and merged. -/
def mergedInput (tx : CTransaction) (i : Nat) : CTransaction :=
  match registered call.mapPrevOut tx i with
  | none => tx
  | some prevPubKey => txVariants.foldl (combineVariant crypto prevPubKey i) (call.signInput prevPubKey i tx)

theorem mergedInput_changed (tx : CTransaction) (i : Nat) : ChangedAt i (call.mergedInput txVariants tx i) tx := by
  unfold mergedInput
  split
  · exact .refl tx
  · exact (ChangedAt.foldl_combineVariant _ _ _).trans (call.signInput_changed _ i tx)

/-! ## The loop -/

/-- What the loop makes of a transaction between two places. -/
structure Merged (tx : CTransaction) (first last : Nat) (before : Bool) (result : CTransaction × Bool) : Prop where
  unsigned : SameUnsigned result.1 tx
  kept : ∀ j, (registered call.mapPrevOut tx j = none ∨ ¬(first ≤ j ∧ j < last)) →
    result.1.scriptSigAt j = tx.scriptSigAt j
  complete : result.2 = true ↔
    before = true ∧ ∀ j, first ≤ j → j < last → VerifiesAt crypto call.mapPrevOut result.1 j

variable {call txVariants}

/-- One round of the loop, and the rounds after it. -/
theorem Merged.step {tx : CTransaction} {i last : Nat} {before after : Bool} {result : CTransaction × Bool}
    (inside : i < last) (later : call.Merged (call.mergedInput txVariants tx i) (i + 1) last after result)
    (flag : after = true ↔ before = true ∧ VerifiesAt crypto call.mapPrevOut (call.mergedInput txVariants tx i) i) :
    call.Merged tx i last before result := by
  have changed := call.mergedInput_changed txVariants tx i
  have own : result.1.scriptSigAt i = (call.mergedInput txVariants tx i).scriptSigAt i :=
    later.kept i (.inr fun range => by omega)
  refine ⟨later.unsigned.trans changed.unsigned, fun j outside => ?_, ?_⟩
  · by_cases here : j = i
    · subst here
      have unknown : registered call.mapPrevOut tx j = none :=
        outside.resolve_right fun fails => fails ⟨le_rfl, inside⟩
      rw [own, mergedInput, unknown]
    · rw [← changed.others j here]
      refine later.kept j ?_
      rw [changed.unsigned.registered]
      exact outside.imp_right fun fails range => fails ⟨by omega, range.2⟩
  · rw [later.complete, flag, ← verifiesAt_congr later.unsigned own]
    constructor
    · rintro ⟨⟨whole, first⟩, others⟩
      refine ⟨whole, fun j from_ below => ?_⟩
      rcases Nat.eq_or_lt_of_le from_ with rfl | further
      · exact first
      · exact others j further below
    · rintro ⟨whole, all⟩
      exact ⟨⟨whole, all i le_rfl inside⟩, fun j from_ below => all j (by omega) below⟩

/-- The loop goes on with the merged input where every variant has it, and fails where one has not. -/
theorem signMerge_succ (left i : Nat) (tx : CTransaction) (fComplete : Bool) :
    ((registered call.mapPrevOut tx i ≠ none → Reach txVariants i) → ∃ flag,
      call.signMerge txVariants (left + 1) i tx fComplete =
        call.signMerge txVariants left (i + 1) (call.mergedInput txVariants tx i) flag ∧
      (flag = true ↔ fComplete = true ∧ VerifiesAt crypto call.mapPrevOut (call.mergedInput txVariants tx i) i)) ∧
    (registered call.mapPrevOut tx i ≠ none → ¬Reach txVariants i →
      call.signMerge txVariants (left + 1) i tx fComplete = .error .outOfRange) := by
  have same := (call.mergedInput_changed txVariants tx i).unsigned.registered call.mapPrevOut i
  rw [signMerge, mergedInput] at *
  cases known : registered call.mapPrevOut tx i with
  | none =>
      refine ⟨fun _ => ⟨false, rfl, ?_⟩, fun some_ => absurd rfl some_⟩
      simp [VerifiesAt, known]
  | some prevPubKey =>
      rw [known] at same
      dsimp only at same ⊢
      obtain ⟨all, short⟩ := @foldlM_mergeVariant crypto prevPubKey i txVariants (call.signInput prevPubKey i tx)
      refine ⟨fun reach => ?_, fun _ fails => by rw [short fails]; rfl⟩
      rw [all (reach (Option.some_ne_none _))]
      refine ⟨_, rfl, ?_⟩
      rw [Bool.and_eq_true]
      refine and_congr_right fun _ => ?_
      simp [VerifiesAt, same]

theorem signMerge_merged (left i : Nat) (tx : CTransaction) (fComplete : Bool)
    (reach : ∀ j, i ≤ j → j < i + left → registered call.mapPrevOut tx j ≠ none → Reach txVariants j) :
    ∃ result, call.signMerge txVariants left i tx fComplete = .ok result ∧
      call.Merged tx i (i + left) fComplete result := by
  induction left generalizing i tx fComplete with
  | zero =>
      refine ⟨(tx, fComplete), rfl, .refl tx, fun _ _ => rfl, ?_⟩
      exact ⟨fun whole => ⟨whole, fun j from_ below => by omega⟩, fun whole => whole.1⟩
  | succ left ih =>
      obtain ⟨flag, round, verified⟩ := (signMerge_succ left i tx fComplete).1 (reach i le_rfl (by omega))
      have changed := call.mergedInput_changed txVariants tx i
      obtain ⟨result, done, merged⟩ := ih (i + 1) (call.mergedInput txVariants tx i) flag fun j from_ below known =>
        reach j (by omega) (by omega) (changed.unsigned.registered call.mapPrevOut j ▸ known)
      rw [show i + 1 + left = i + (left + 1) by omega] at merged
      exact ⟨result, round.trans done, merged.step (by omega) verified⟩

theorem signMerge_outOfRange (left i : Nat) (tx : CTransaction) (fComplete : Bool) {j : Nat} (from_ : i ≤ j)
    (below : j < i + left) (known : registered call.mapPrevOut tx j ≠ none) (short : ¬Reach txVariants j) :
    call.signMerge txVariants left i tx fComplete = .error .outOfRange := by
  induction left generalizing i tx fComplete with
  | zero => omega
  | succ left ih =>
      by_cases here : registered call.mapPrevOut tx i ≠ none → Reach txVariants i
      · have further : i + 1 ≤ j := by
          rcases Nat.eq_or_lt_of_le from_ with rfl | further
          · exact absurd (here known) short
          · exact further
        obtain ⟨flag, round, -⟩ := (signMerge_succ left i tx fComplete).1 here
        have changed := call.mergedInput_changed txVariants tx i
        rw [round]
        exact ih (i + 1) _ flag further (by omega) (by rwa [changed.unsigned.registered])
      · obtain ⟨some_, fails⟩ := Classical.not_imp.mp here
        exact (signMerge_succ left i tx fComplete).2 some_ fails

end SignCall

/-! ## The calls -/

section Transactions

variable {mapPrevOut : PrevOuts} {first tx : CTransaction} {txVariants : List CTransaction} {i : Nat}

theorem combineStacks_congr {left right : CTransaction} (same : SameUnsigned left right) (nIn : Nat)
    (scriptPubKey : CScript) (txType : TxnOutType) (vSolutions sigs1 sigs2 : List Bytes) :
    combineStacks crypto left nIn scriptPubKey txType vSolutions sigs1 sigs2 =
      combineStacks crypto right nIn scriptPubKey txType vSolutions sigs1 sigs2 := by
  have checks : ∀ code sig pubkey, checkSig crypto.scripts ⟨sig, pubkey, code, left, nIn, 0⟩ =
      checkSig crypto.scripts ⟨sig, pubkey, code, right, nIn, 0⟩ := by
    intro code sig pubkey
    have hash := fun nHashType => signatureHash_congr crypto.scripts.hash code nIn nHashType same
    simp only [checkSig, SigCheck.hashType, SigCheck.sigData, SigCheck.signature, hash]
  induction sigs1 generalizing scriptPubKey txType vSolutions sigs2 with
  | nil => cases txType <;> unfold combineStacks <;> simp only [checks]
  | cons spk rest1 ih =>
      cases txType <;> cases sigs2 <;> unfold combineStacks <;> simp only [checks, ih]

/-- What the variants that have an input give for it, one after the other. -/
def combinedScript (crypto : SignCrypto) (mapPrevOut : PrevOuts) (txVariants : List CTransaction) (tx : CTransaction)
    (i : Nat) (scriptSig : CScript) : CScript :=
  match registered mapPrevOut tx i with
  | none => scriptSig
  | some prevPubKey =>
      (txVariants.filterMap fun txv => txv.scriptSigAt i).foldl (combineSignatures crypto prevPubKey tx i) scriptSig

theorem foldl_combineVariant_own (prevPubKey : CScript) (same : SameUnsigned tx first) :
    (txVariants.foldl (combineVariant crypto prevPubKey i) tx).scriptSigAt i = (tx.scriptSigAt i).map
      ((txVariants.filterMap fun txv => txv.scriptSigAt i).foldl (combineSignatures crypto prevPubKey first i)) := by
  induction txVariants generalizing tx with
  | nil => exact Option.map_id'.symm
  | cons txv rest ih =>
      rw [List.foldl_cons, ih ((ChangedAt.combineVariant prevPubKey tx txv).unsigned.trans same)]
      unfold combineVariant
      cases found : txv.vin[i]? with
      | none =>
          have missing : txv.scriptSigAt i = none := by rw [CTransaction.scriptSigAt, found, Option.map_none]
          rw [List.filterMap_cons, missing]
      | some txin =>
          have own : txv.scriptSigAt i = some txin.scriptSig := by
            rw [CTransaction.scriptSigAt, found, Option.map_some]
          have combined : combineSignatures crypto prevPubKey tx i = combineSignatures crypto prevPubKey first i := by
            ext scriptSig1 scriptSig2 : 2
            exact combineStacks_congr same i _ _ _ _ _
          rw [List.filterMap_cons, own]
          dsimp only
          rw [mergeScript, scriptSigAt_setScriptSig, if_pos rfl, combined]
          cases tx.scriptSigAt i with
          | none => rfl
          | some scriptSig => rfl

/-- The loop over the inputs up to a place. -/
theorem foldl_combineInput (mapPrevOut : PrevOuts) (txVariants : List CTransaction) (first : CTransaction)
    (places : Nat) :
    SameUnsigned ((List.range places).foldl (combineInput crypto mapPrevOut txVariants) first) first ∧
      ∀ i, ((List.range places).foldl (combineInput crypto mapPrevOut txVariants) first).scriptSigAt i =
        if i < places then (first.scriptSigAt i).map (combinedScript crypto mapPrevOut txVariants first i)
        else first.scriptSigAt i := by
  induction places with
  | zero => exact ⟨.refl first, fun i => (if_neg (Nat.not_lt_zero i)).symm⟩
  | succ place ih =>
      obtain ⟨same, earlier⟩ := ih
      rw [List.range_succ, List.foldl_concat]
      generalize (List.range place).foldl (combineInput crypto mapPrevOut txVariants) first = before at same earlier
      have known := same.registered mapPrevOut place
      unfold combineInput
      cases found : registered mapPrevOut before place with
      | none =>
          refine ⟨same, fun i => (earlier i).trans ?_⟩
          by_cases here : i = place
          · subst here
            have kept : combinedScript crypto mapPrevOut txVariants first i = id := by
              ext scriptSig : 1
              rw [combinedScript, ← known, found, id]
            rw [if_neg (lt_irrefl i), if_pos i.lt_succ_self, kept, Option.map_id, id]
          · simp only [Nat.lt_succ_iff_lt_or_eq, here, or_false]
      | some prevPubKey =>
          have changed := @ChangedAt.foldl_combineVariant crypto place prevPubKey txVariants before
          refine ⟨changed.unsigned.trans same, fun i => ?_⟩
          by_cases here : i = place
          · subst here
            rw [foldl_combineVariant_own prevPubKey same, earlier, if_neg (lt_irrefl i), if_pos i.lt_succ_self]
            congr 1
            ext scriptSig : 1
            rw [combinedScript, ← known, found]
          · rw [changed.others i here, earlier]
            simp only [Nat.lt_succ_iff_lt_or_eq, here, or_false]

/-- `CombineTransactions` goes input by input: nothing but `scriptSig`s of known inputs changes, and such a one
becomes what `CombineSignatures` makes of its own and of those of the variants that have the input, checked against
the first transaction, whatever the other inputs are merged to. -/
theorem combineTransactions_inputwise (crypto : SignCrypto) (mapPrevOut : PrevOuts) (first : CTransaction)
    (rest : List CTransaction) :
    ∃ mergedTx, combineTransactions crypto (first :: rest) mapPrevOut = some mergedTx ∧ SameUnsigned mergedTx first ∧
      ∀ i, mergedTx.scriptSigAt i =
        (first.scriptSigAt i).map (combinedScript crypto mapPrevOut (first :: rest) first i) := by
  obtain ⟨same, scripts⟩ := @foldl_combineInput crypto mapPrevOut (first :: rest) first first.vin.length
  refine ⟨_, rfl, same, fun i => (scripts i).trans ?_⟩
  split
  · rfl
  · rename_i outside
    rw [CTransaction.scriptSigAt, List.getElem?_eq_none (not_lt.mp outside), Option.map_none, Option.map_none]

end Transactions

/-- A call reads no input out of range, changes `scriptSig`s of known inputs and nothing else, and reports complete
exactly where every input has a known previous output and verifies. -/
def SignsExactly (mapPrevOut : PrevOuts) (first : CTransaction) (result : Except SignFailure (CTransaction × Bool))
    (crypto : SignCrypto) : Prop :=
  ∃ mergedTx fComplete, result = .ok (mergedTx, fComplete) ∧ SameUnsigned mergedTx first ∧
    (∀ i, registered mapPrevOut first i = none → mergedTx.scriptSigAt i = first.scriptSigAt i) ∧
    (fComplete = true ↔ ∀ i < mergedTx.vin.length, VerifiesAt crypto mapPrevOut mergedTx i)

/-- `signrawtransaction` does what it should exactly where every variant has an input at the place of each input of
the first one whose previous output is known. -/
theorem signrawtransaction_exact_iff {first : CTransaction} {rest : List CTransaction}
    {fetched : UInt256 → Option CTransaction} {prevTxs : List (COutPoint × CScript)}
    {keystore : CKeyStore crypto.toKeyCrypto} {nHashType : Int32} {signer : Nat → Signer} {mapPrevOut : PrevOuts}
    (known : addPrevTxs prevTxs (fetchPrevOuts fetched first.vin) = .ok mapPrevOut) :
    SignsExactly mapPrevOut first
        (signrawtransaction (first :: rest) fetched prevTxs keystore nHashType signer) crypto ↔
      ∀ i, registered mapPrevOut first i ≠ none → ∀ txv ∈ first :: rest, i < txv.vin.length := by
  have run : signrawtransaction (first :: rest) fetched prevTxs keystore nHashType signer =
      SignCall.signMerge ⟨mapPrevOut, keystore, signer, nHashType⟩ (first :: rest) first.vin.length 0 first true := by
    rw [signrawtransaction, known]
    rfl
  rw [run]
  generalize shape : SignCall.mk mapPrevOut keystore signer nHashType = call
  obtain rfl : call.mapPrevOut = mapPrevOut := by rw [← shape]
  constructor
  · rintro ⟨mergedTx, fComplete, done, -⟩ i some_
    by_contra short
    have inside : i < 0 + first.vin.length := by
      rw [Nat.zero_add]
      by_contra outside
      exact some_ (by rw [registered, List.getElem?_eq_none (not_lt.mp outside), Option.bind_none])
    rw [SignCall.signMerge_outOfRange _ _ first true (Nat.zero_le i) inside some_ short] at done
    cases done
  · intro reach
    obtain ⟨⟨mergedTx, fComplete⟩, done, merged⟩ :=
      @SignCall.signMerge_merged crypto call (first :: rest) first.vin.length 0 first true fun j _ _ => reach j
    refine ⟨mergedTx, fComplete, done, merged.unsigned, fun i unknown => merged.kept i (.inl unknown), ?_⟩
    rw [merged.complete, merged.unsigned.length]
    simp

section Concrete

/-- The outputs that `jointTx` spends. -/
def jointOutputs : List (COutPoint × CScript) := [(⟨1, 0⟩, paysToSecret 7), (⟨2, 0⟩, paysToSecret 8)]

def jointPrevOuts : PrevOuts :=
  Function.update (Function.update (fun _ => none) ⟨1, 0⟩ (some (paysToSecret 7))) ⟨2, 0⟩ (some (paysToSecret 8))

/-- Without keys, what two copies of a transaction are merged to is not complete. -/
theorem signrawtransaction_joint :
    SignsExactly jointPrevOuts jointTx
      (signrawtransaction [jointTx, jointTx] (fun _ => none) jointOutputs
        (CCryptoKeyStore.basic idealCrypto.toKeyCrypto .new) sighashAll idealSigner) idealCrypto := by
  refine (signrawtransaction_exact_iff rfl).mpr fun i some_ txv member => ?_
  obtain rfl : txv = jointTx := by simpa using member
  by_contra outside
  exact some_ (by rw [registered, List.getElem?_eq_none (not_lt.mp outside), Option.bind_none])

/-- The other variant has only the first of the two inputs. -/
theorem signrawtransaction_short :
    ¬∀ (crypto : SignCrypto) (first : CTransaction) (rest : List CTransaction) (fetched : UInt256 → Option CTransaction)
      (prevTxs : List (COutPoint × CScript)) (keystore : CKeyStore crypto.toKeyCrypto) (nHashType : Int32)
      (signer : Nat → Signer) (mapPrevOut : PrevOuts),
      addPrevTxs prevTxs (fetchPrevOuts fetched first.vin) = .ok mapPrevOut →
        SignsExactly mapPrevOut first (signrawtransaction (first :: rest) fetched prevTxs keystore nHashType signer)
          crypto := by
  intro claim
  obtain ⟨mergedTx, fComplete, done, -⟩ := claim idealCrypto jointTx [{ jointTx with vin := jointTx.vin.take 1 }]
    (fun _ => none) jointOutputs (CCryptoKeyStore.basic idealCrypto.toKeyCrypto .new) sighashAll idealSigner
    jointPrevOuts rfl
  have run : signrawtransaction [jointTx, { jointTx with vin := jointTx.vin.take 1 }] (fun _ => none) jointOutputs
      (CCryptoKeyStore.basic idealCrypto.toKeyCrypto .new) sighashAll idealSigner =
      SignCall.signMerge ⟨jointPrevOuts, CCryptoKeyStore.basic idealCrypto.toKeyCrypto .new, idealSigner, sighashAll⟩
        [jointTx, { jointTx with vin := jointTx.vin.take 1 }] 2 0 jointTx true := rfl
  rw [run, SignCall.signMerge_outOfRange 2 0 jointTx true (Nat.zero_le 1) (by decide) (by decide) fun reach => by
    have inside := reach _ (List.mem_cons_of_mem _ List.mem_cons_self)
    exact absurd inside (by decide)] at done
  cases done

end Concrete

end InfiniteRicks
