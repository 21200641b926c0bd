import InfiniteRicks.TxTools

/-!
# What signing again keeps

What a call of `SignTxWithKeys` makes of an input depends on that input and on the keys of the
call, and not on the `scriptSig`s it finds. The answer about completeness is right for the
transaction as it is in the end. But an input that was complete stays so only where the keys of
the later call complete it again: nothing is merged.
-/

namespace InfiniteRicks

/-- The script that is registered for an input. -/
def registered (mapPrevOut : PrevOuts) (tx : CTransaction) (i : Nat) : Option CScript :=
  (tx.vin[i]?).bind fun txin => mapPrevOut txin.prevout

/-- An input has a registered script, and verifies against it. -/
def VerifiesAt (crypto : SignCrypto) (mapPrevOut : PrevOuts) (tx : CTransaction) (i : Nat) : Prop :=
  ∃ prevPubKey, registered mapPrevOut tx i = some prevPubKey ∧ SignCall.verifyInput crypto prevPubKey i tx = true

instance (crypto : SignCrypto) (mapPrevOut : PrevOuts) (tx : CTransaction) (i : Nat) :
    Decidable (VerifiesAt crypto mapPrevOut tx i) :=
  decidable_of_iff ((registered mapPrevOut tx i).any fun prevPubKey => SignCall.verifyInput crypto prevPubKey i tx)
    (Option.any_eq_true _ _)

/-- The `scriptSig` of an input. -/
def CTransaction.scriptSigAt (tx : CTransaction) (i : Nat) : Option CScript := tx.vin[i]?.map CTxIn.scriptSig

theorem SameUnsigned.registered {left right : CTransaction} (same : SameUnsigned left right) (mapPrevOut : PrevOuts)
    (i : Nat) : registered mapPrevOut left i = registered mapPrevOut right i := by
  have prevout : left.vin[i]?.map CTxIn.prevout = right.vin[i]?.map CTxIn.prevout := by
    rw [← List.getElem?_map, ← List.getElem?_map, same.prevouts]
  have bound : ∀ txin : Option CTxIn, (txin.bind fun txin => mapPrevOut txin.prevout) =
      (txin.map CTxIn.prevout).bind mapPrevOut := fun txin => by cases txin <;> rfl
  rw [InfiniteRicks.registered, InfiniteRicks.registered, bound, bound, prevout]

theorem scriptSigAt_setScriptSig (tx : CTransaction) (i j : Nat) (scriptSig : CScript) :
    (tx.setScriptSig i scriptSig).scriptSigAt j =
      if i = j then (tx.scriptSigAt j).map fun _ => scriptSig else tx.scriptSigAt j := by
  simp only [CTransaction.scriptSigAt, CTransaction.setScriptSig, List.getElem?_modify]
  cases tx.vin[j]? with
  | none => simp
  | some txin =>
      simp only [Option.map_some, Option.map_eq_map]
      split <;> rfl

/-- Whether an input verifies is about its own `scriptSig`. -/
theorem verifiesAt_congr {crypto : SignCrypto} {mapPrevOut : PrevOuts} {left right : CTransaction} {i : Nat}
    (same : SameUnsigned left right) (own : left.scriptSigAt i = right.scriptSigAt i) :
    VerifiesAt crypto mapPrevOut left i ↔ VerifiesAt crypto mapPrevOut right i := by
  have context : SameContext ⟨crypto.scripts, left, i, 0⟩ ⟨crypto.scripts, right, i, 0⟩ := ⟨rfl, same, rfl, rfl⟩
  have verdict : ∀ prevPubKey,
      SignCall.verifyInput crypto prevPubKey i left = SignCall.verifyInput crypto prevPubKey i right := by
    intro prevPubKey
    rw [CTransaction.scriptSigAt, CTransaction.scriptSigAt] at own
    rw [SignCall.verifyInput, SignCall.verifyInput, own]
    exact context.verifyScript _ _
  simp only [VerifiesAt, same.registered, verdict]

namespace SignCall

variable {crypto : SignCrypto} (call : SignCall crypto)

/-- What a call puts into a registered input. -/
def newScript (prevPubKey : CScript) (i : Nat) (tx : CTransaction) : CScript :=
  if !fHashSingle call.nHashType || decide (i < tx.vout.length) then
    (call.keystore.signedScript (call.signer i) prevPubKey tx i call.nHashType).2
  else []

/-- What stands in an input after a call. -/
def scriptAfter (tx : CTransaction) (i : Nat) : Option CScript :=
  match registered call.mapPrevOut tx i with
  | none => tx.scriptSigAt i
  | some prevPubKey => some (call.newScript prevPubKey i tx)

/-- The transaction with one input signed by a call. -/
def signOne (tx : CTransaction) (i : Nat) : CTransaction :=
  match registered call.mapPrevOut tx i with
  | none => tx
  | some prevPubKey => call.signInput prevPubKey i tx

theorem newScript_congr {left right : CTransaction} (same : SameUnsigned left right) (prevPubKey : CScript) (i : Nat) :
    call.newScript prevPubKey i left = call.newScript prevPubKey i right := by
  rw [newScript, newScript, same.vout,
    CKeyStore.signedScript_congr call.keystore (call.signer i) prevPubKey i call.nHashType same]

theorem setScriptSig_setScriptSig (tx : CTransaction) (i : Nat) (first second : CScript) :
    (tx.setScriptSig i first).setScriptSig i second = tx.setScriptSig i second := by
  simp only [CTransaction.setScriptSig, List.modify_modify_eq]
  rfl

/-- Signing an input replaces its `scriptSig`. -/
theorem signInput_eq (prevPubKey : CScript) (i : Nat) (tx : CTransaction) :
    call.signInput prevPubKey i tx = tx.setScriptSig i (call.newScript prevPubKey i tx) := by
  have cleared := tx.setScriptSig_same i []
  have outputs : (tx.setScriptSig i []).vout = tx.vout := rfl
  simp only [signInput, newScript, outputs]
  split
  · rw [CKeyStore.signSignature]
    dsimp only
    rw [setScriptSig_setScriptSig,
      CKeyStore.signedScript_congr call.keystore (call.signer i) prevPubKey i call.nHashType cleared]
  · rfl

theorem signOne_same (tx : CTransaction) (i : Nat) : SameUnsigned (call.signOne tx i) tx := by
  rw [signOne]
  split
  · exact SameUnsigned.refl tx
  · rw [signInput_eq]
    exact tx.setScriptSig_same _ _

/-- A registered input is there. -/
theorem scriptSigAt_of_registered {mapPrevOut : PrevOuts} {tx : CTransaction} {i : Nat} {prevPubKey : CScript}
    (known : registered mapPrevOut tx i = some prevPubKey) : ∃ scriptSig, tx.scriptSigAt i = some scriptSig := by
  obtain ⟨txin, present, -⟩ := Option.bind_eq_some_iff.mp known
  exact ⟨txin.scriptSig, by rw [CTransaction.scriptSigAt, present, Option.map_some]⟩

theorem scriptSigAt_signOne (tx : CTransaction) (i j : Nat) :
    (call.signOne tx i).scriptSigAt j = if i = j then call.scriptAfter tx j else tx.scriptSigAt j := by
  rw [signOne, scriptAfter]
  split
  · rename_i unknown
    split
    · rename_i same
      subst same
      rw [unknown]
    · rfl
  · rename_i prevPubKey known
    obtain ⟨scriptSig, present⟩ := scriptSigAt_of_registered known
    rw [signInput_eq, scriptSigAt_setScriptSig]
    split
    · rename_i same
      subst same
      rw [known, present, Option.map_some]
    · rfl

/-- What the loop makes of a transaction between two places. -/
structure Signed (call : SignCall crypto) (tx : CTransaction) (first last : Nat) (before : Bool)
    (result : CTransaction × Bool) : Prop where
  unsigned : SameUnsigned result.1 tx
  scripts : ∀ j, result.1.scriptSigAt j =
    if first ≤ j ∧ j < last then call.scriptAfter tx j else tx.scriptSigAt j
  complete : result.2 = true ↔
    before = true ∧ ∀ j, first ≤ j → j < last → VerifiesAt crypto call.mapPrevOut result.1 j

theorem scriptAfter_congr {left right : CTransaction} (same : SameUnsigned left right) {i : Nat}
    (own : left.scriptSigAt i = right.scriptSigAt i) : call.scriptAfter left i = call.scriptAfter right i := by
  simp only [scriptAfter, same.registered, own, call.newScript_congr same]

/-- One round of the loop, and the rounds after it. -/
theorem Signed.step {tx : CTransaction} {i last : Nat} {before after : Bool} {result : CTransaction × Bool}
    (inside : i < last) (later : call.Signed (call.signOne tx i) (i + 1) last after result)
    (flag : after = true ↔ before = true ∧ VerifiesAt crypto call.mapPrevOut (call.signOne tx i) i) :
    call.Signed tx i last before result := by
  have same := call.signOne_same tx i
  have own : result.1.scriptSigAt i = (call.signOne tx i).scriptSigAt i := by
    rw [later.scripts, if_neg (by omega)]
  refine ⟨later.unsigned.trans same, fun j => ?_, ?_⟩
  · rw [later.scripts]
    by_cases here : j = i
    · subst here
      rw [if_neg (by omega), if_pos ⟨le_rfl, inside⟩, scriptSigAt_signOne, if_pos rfl]
    · have kept : (call.signOne tx i).scriptSigAt j = tx.scriptSigAt j := by
        rw [scriptSigAt_signOne, if_neg (Ne.symm here)]
      have range : (i + 1 ≤ j ∧ j < last) ↔ (i ≤ j ∧ j < last) := by omega
      rw [call.scriptAfter_congr same kept, kept]
      simp only [range]
  · rw [later.complete, flag, ← verifiesAt_congr later.unsigned own]
    constructor
    · rintro ⟨⟨whole, first⟩, others⟩
      refine ⟨whole, fun j from_ below => ?_⟩
      rcases Nat.eq_or_lt_of_le from_ with rfl | further
      · exact first
      · exact others j further below
    · rintro ⟨whole, all⟩
      exact ⟨⟨whole, all i le_rfl inside⟩, fun j from_ below => all j (by omega) below⟩

theorem signLoop_signed (left i : Nat) (tx : CTransaction) (fComplete : Bool) :
    call.Signed tx i (i + left) fComplete (call.signLoop left i tx fComplete) := by
  induction left generalizing i tx fComplete with
  | zero =>
      refine ⟨SameUnsigned.refl tx, fun j => by rw [if_neg (by omega)]; rfl, ?_⟩
      exact ⟨fun whole => ⟨whole, fun j from_ below => by omega⟩, fun whole => whole.1⟩
  | succ left ih =>
      have last : i + (left + 1) = i + 1 + left := by omega
      rw [signLoop, last]
      cases known : registered call.mapPrevOut tx i with
      | none =>
          have unknown : (tx.vin[i]?.bind fun txin => call.mapPrevOut txin.prevout) = none := known
          have unsigned : call.signOne tx i = tx := by rw [signOne, known]
          rw [unknown]
          refine @Signed.step _ call _ _ _ _ false _ (by omega) (unsigned.symm ▸ ih (i + 1) tx false) ?_
          rw [unsigned]
          simp [VerifiesAt, known]
      | some prevPubKey =>
          have found : (tx.vin[i]?.bind fun txin => call.mapPrevOut txin.prevout) = some prevPubKey := known
          have signed : call.signOne tx i = call.signInput prevPubKey i tx := by rw [signOne, known]
          rw [found]
          dsimp only
          rw [← signed]
          refine Signed.step call (by omega) (ih (i + 1) _ _) ?_
          rw [Bool.and_eq_true]
          refine and_congr_right fun _ => ?_
          simp [VerifiesAt, (call.signOne_same tx i).registered, known]

/-- The whole loop: every input is what the call makes of it alone. -/
theorem signLoop_verifiesAt {tx final : CTransaction} {fComplete : Bool}
    (done : call.signLoop tx.vin.length 0 tx true = (final, fComplete)) :
    SameUnsigned final tx ∧
      (∀ i, VerifiesAt crypto call.mapPrevOut final i ↔ VerifiesAt crypto call.mapPrevOut (call.signOne tx i) i) ∧
      (fComplete = true ↔ ∀ i < final.vin.length, VerifiesAt crypto call.mapPrevOut final i) := by
  obtain ⟨unsigned, scripts, complete⟩ := done ▸ call.signLoop_signed tx.vin.length 0 tx true
  dsimp only at unsigned scripts complete
  refine ⟨unsigned, fun i => ?_, ?_⟩
  · refine verifiesAt_congr (unsigned.trans (call.signOne_same tx i).symm) ?_
    rw [scripts, scriptSigAt_signOne, if_pos rfl]
    split
    · rfl
    · rename_i outside
      have absent : tx.vin[i]? = none := List.getElem?_eq_none (by omega)
      rw [scriptAfter, registered, absent, Option.bind_none]
  · rw [complete, unsigned.length]
    simp

end SignCall

/-- The keys of a call alone, used on one input of a transaction, complete it. -/
def CompletedBy (crypto : SignCrypto) (fTestNet : Bool) (mapPrevOut : PrevOuts) (tx : CTransaction) (i : Nat)
    (keys : List Bytes) (nHashType : Int32) (signer : Nat → Signer) : Prop :=
  ∃ keystore, addSecrets crypto.toKeyCrypto fTestNet keys .new = some keystore ∧
    VerifiesAt crypto mapPrevOut
      (SignCall.signOne ⟨mapPrevOut, keystore.basic crypto.toKeyCrypto, signer, nHashType⟩ tx i) i

/-- What a call of `SignTxWithKeys` is about: the inputs that verify afterwards are those that its keys
alone complete, and the answer is whether all do. -/
theorem signTxWithKeys_spec {crypto : SignCrypto} {fTestNet : Bool} {tx final : CTransaction} {mapPrevOut : PrevOuts}
    {keys : List Bytes} {nHashType : Int32} {signer : Nat → Signer} {fComplete : Bool}
    (signed : signTxWithKeys crypto fTestNet tx mapPrevOut keys nHashType signer = some (final, fComplete)) :
    SameUnsigned final tx ∧
      (∀ i, VerifiesAt crypto mapPrevOut final i ↔ CompletedBy crypto fTestNet mapPrevOut tx i keys nHashType signer) ∧
      (fComplete = true ↔ ∀ i < final.vin.length, VerifiesAt crypto mapPrevOut final i) := by
  obtain ⟨keystore, read, done⟩ := Option.map_eq_some_iff.mp signed
  obtain ⟨unsigned, verified, complete⟩ := SignCall.signLoop_verifiesAt _ done
  refine ⟨unsigned, fun i => (verified i).trans ?_, complete⟩
  constructor
  · intro holds
    exact ⟨keystore, read, holds⟩
  · rintro ⟨other, otherRead, holds⟩
    cases read.symm.trans otherRead
    exact holds

/-- What stands in a transaction does not matter to the keys of a call. -/
theorem completedBy_congr {crypto : SignCrypto} {fTestNet : Bool} {mapPrevOut : PrevOuts} {left right : CTransaction}
    {i : Nat} {keys : List Bytes} {nHashType : Int32} {signer : Nat → Signer} (same : SameUnsigned left right) :
    CompletedBy crypto fTestNet mapPrevOut left i keys nHashType signer ↔
      CompletedBy crypto fTestNet mapPrevOut right i keys nHashType signer := by
  refine exists_congr fun keystore => and_congr_right fun _ => ?_
  generalize shape : SignCall.mk mapPrevOut (keystore.basic crypto.toKeyCrypto) signer nHashType = call
  have registers : call.mapPrevOut = mapPrevOut := by rw [← shape]
  cases known : registered mapPrevOut right i with
  | none =>
      have never : ∀ tx, SameUnsigned tx right → ¬VerifiesAt crypto mapPrevOut tx i := by
        rintro tx alike ⟨prevPubKey, some, -⟩
        rw [alike.registered, known] at some
        cases some
      exact iff_of_false (never _ ((call.signOne_same left i).trans same)) (never _ (call.signOne_same right i))
  | some prevPubKey =>
      refine verifiesAt_congr (((call.signOne_same left i).trans same).trans (call.signOne_same right i).symm) ?_
      rw [call.scriptSigAt_signOne, call.scriptSigAt_signOne, if_pos rfl, if_pos rfl, SignCall.scriptAfter,
        SignCall.scriptAfter, registers, same.registered, known]
      exact congrArg some (call.newScript_congr same prevPubKey i)

section Incremental

variable {crypto : SignCrypto} {fTestNet : Bool} {tx tx1 tx2 : CTransaction} {mapPrevOut : PrevOuts}
  {keys1 keys2 : List Bytes} {nHashType1 nHashType2 : Int32} {signer1 signer2 : Nat → Signer}
  {fComplete1 fComplete2 : Bool}

/-- Two calls after each other keep what verified after the first, and say rightly whether all inputs
verify, exactly when the keys of the second complete every input that those of the first complete. -/
theorem signTxWithKeys_keeps_iff
    (first : signTxWithKeys crypto fTestNet tx mapPrevOut keys1 nHashType1 signer1 = some (tx1, fComplete1))
    (second : signTxWithKeys crypto fTestNet tx1 mapPrevOut keys2 nHashType2 signer2 = some (tx2, fComplete2)) :
    ((∀ i, VerifiesAt crypto mapPrevOut tx1 i → VerifiesAt crypto mapPrevOut tx2 i) ∧
        (fComplete1 = true ↔ ∀ i < tx1.vin.length, VerifiesAt crypto mapPrevOut tx1 i) ∧
        (fComplete2 = true ↔ ∀ i < tx2.vin.length, VerifiesAt crypto mapPrevOut tx2 i)) ↔
      ∀ i, CompletedBy crypto fTestNet mapPrevOut tx i keys1 nHashType1 signer1 →
        CompletedBy crypto fTestNet mapPrevOut tx i keys2 nHashType2 signer2 := by
  obtain ⟨unsigned, verified1, complete1⟩ := signTxWithKeys_spec first
  obtain ⟨-, verified2, complete2⟩ := signTxWithKeys_spec second
  rw [and_iff_left ⟨complete1, complete2⟩]
  refine forall_congr' fun i => ?_
  rw [verified1, verified2, completedBy_congr unsigned]

end Incremental

section Concrete

/-- A signature that names the secret and the hash. -/
def idealSign (secret : Bytes) (hash : UInt256) : Bytes :=
  [0x30, 69, 0x02, 33, 0x01] ++ secret ++ [0x02, 32, 0x01] ++ littleEndianBytes 31 (hash.toNat % 2 ^ 248)

/-- Keys that are their own points, under which just their own signatures verify. -/
def idealCrypto : SignCrypto :=
  { KeyCrypto.sample with
    hash := lastBytes
    ripemd160 := fun _ => 0
    sha1 := fun _ => 0
    sha256 := fun _ => 0
    verify := fun vchPubKey hash vchSig => vchSig = idealSign (vchPubKey.drop 1) hash }

def idealSigner : Nat → Signer := fun _ _ secret hash => some (idealSign secret hash)

/-- The secret 7, as text. -/
def firstSecret : Bytes :=
  [75, 119, 68, 105, 66, 102, 56, 57, 81, 103, 71, 98, 106, 69, 104, 75, 110, 104, 88, 74, 117, 72, 55, 76, 114, 99,
    105, 86, 114, 90, 105, 51, 113, 89, 106, 103, 100, 57, 77, 55, 114, 70, 85, 55, 54, 114, 107, 90, 76, 102, 122, 102]

/-- The secret 8. -/
def secondSecret : Bytes :=
  [75, 119, 68, 105, 66, 102, 56, 57, 81, 103, 71, 98, 106, 69, 104, 75, 110, 104, 88, 74, 117, 72, 55, 76, 114, 99,
    105, 86, 114, 90, 105, 51, 113, 89, 106, 103, 100, 57, 77, 55, 114, 70, 85, 55, 55, 77, 100, 106, 82, 87, 49, 68]

/-- Pay to the public key of a small secret. -/
def paysToSecret (byte : UInt8) : CScript :=
  CScript.pushData (2 :: (List.replicate 31 0 ++ [byte])) ++ [CScript.opCheckSig]

def twoPrevOuts : PrevOuts := fun prevout =>
  if prevout = ⟨1, 0⟩ then some (paysToSecret 7) else if prevout = ⟨2, 0⟩ then some (paysToSecret 8) else none

/-- A transaction of two owners. -/
def jointTx : CTransaction :=
  ⟨1, 1000, [⟨⟨1, 0⟩, [], 0xffffffff⟩, ⟨⟨2, 0⟩, [], 0xffffffff⟩], [⟨5, [0x51]⟩], 0⟩

/-- The transaction signed with some keys, and then with others. -/
def signTwice (keys1 keys2 : List Bytes) : Option ((CTransaction × Bool) × CTransaction × Bool) :=
  (signTxWithKeys idealCrypto false jointTx twoPrevOuts keys1 sighashAll idealSigner).bind fun first =>
    (signTxWithKeys idealCrypto false first.1 twoPrevOuts keys2 sighashAll idealSigner).map (first, ·)

theorem signTwice_cases {keys1 keys2 : List Bytes} (check : CTransaction → CTransaction → Bool)
    (passes : (signTwice keys1 keys2).any (fun run => check run.1.1 run.2.1) = true) :
    ∃ tx1 fComplete1 tx2 fComplete2,
      signTxWithKeys idealCrypto false jointTx twoPrevOuts keys1 sighashAll idealSigner = some (tx1, fComplete1) ∧
      signTxWithKeys idealCrypto false tx1 twoPrevOuts keys2 sighashAll idealSigner = some (tx2, fComplete2) ∧
      check tx1 tx2 = true := by
  obtain ⟨⟨⟨tx1, fComplete1⟩, tx2, fComplete2⟩, run, passed⟩ := (Option.any_eq_true _ _).mp passes
  obtain ⟨first, signed, second⟩ := Option.bind_eq_some_iff.mp run
  obtain ⟨after, signedAgain, same⟩ := Option.map_eq_some_iff.mp second
  cases same
  exact ⟨tx1, fComplete1, tx2, fComplete2, signed, signedAgain, passed⟩

/-- Where the second owner has both keys, the signature of the first is made again. -/
theorem signTxWithKeys_keeps_both : ∃ tx1 fComplete1 tx2 fComplete2,
    signTxWithKeys idealCrypto false jointTx twoPrevOuts [firstSecret] sighashAll idealSigner =
        some (tx1, fComplete1) ∧
      signTxWithKeys idealCrypto false tx1 twoPrevOuts [secondSecret, firstSecret] sighashAll idealSigner =
        some (tx2, fComplete2) ∧
      VerifiesAt idealCrypto twoPrevOuts tx1 0 ∧ VerifiesAt idealCrypto twoPrevOuts tx2 0 := by
  obtain ⟨tx1, fComplete1, tx2, fComplete2, first, second, passed⟩ :=
    @signTwice_cases [firstSecret] [secondSecret, firstSecret]
      (fun tx1 _ => decide (VerifiesAt idealCrypto twoPrevOuts tx1 0)) (by decide +kernel)
  rw [decide_eq_true_eq] at passed
  have both : ∀ i < jointTx.vin.length, CompletedBy idealCrypto false twoPrevOuts jointTx i
      [secondSecret, firstSecret] sighashAll idealSigner := by
    have completed : ((addSecrets idealCrypto.toKeyCrypto false [secondSecret, firstSecret] .new).any fun keystore =>
        decide (∀ i < jointTx.vin.length, VerifiesAt idealCrypto twoPrevOuts
          (SignCall.signOne ⟨twoPrevOuts, keystore.basic idealCrypto.toKeyCrypto, idealSigner, sighashAll⟩ jointTx i)
          i)) = true := by decide +kernel
    obtain ⟨keystore, read, verified⟩ := (Option.any_eq_true _ _).mp completed
    rw [decide_eq_true_eq] at verified
    exact fun i inside => ⟨keystore, read, verified i inside⟩
  refine ⟨tx1, fComplete1, tx2, fComplete2, first, second, passed, ?_⟩
  refine ((signTxWithKeys_keeps_iff first second).mpr fun i completed => ?_).1 0 passed
  obtain ⟨keystore, -, prevPubKey, known, -⟩ := completed
  rw [(SignCall.signOne_same _ jointTx i).registered] at known
  obtain ⟨txin, present, -⟩ := Option.bind_eq_some_iff.mp known
  exact both i (List.getElem?_eq_some_iff.mp present).1

/-- Two owners sign one after the other: when the second has signed, the input of the first does not
verify any more. -/
theorem signTxWithKeys_drops_signature : ∃ tx1 fComplete1 tx2 fComplete2,
    signTxWithKeys idealCrypto false jointTx twoPrevOuts [firstSecret] sighashAll idealSigner =
        some (tx1, fComplete1) ∧
      signTxWithKeys idealCrypto false tx1 twoPrevOuts [secondSecret] sighashAll idealSigner =
        some (tx2, fComplete2) ∧
      VerifiesAt idealCrypto twoPrevOuts tx1 0 ∧ ¬VerifiesAt idealCrypto twoPrevOuts tx2 0 := by
  obtain ⟨tx1, fComplete1, tx2, fComplete2, first, second, passed⟩ :=
    @signTwice_cases [firstSecret] [secondSecret]
      (fun tx1 tx2 => decide (VerifiesAt idealCrypto twoPrevOuts tx1 0 ∧ ¬VerifiesAt idealCrypto twoPrevOuts tx2 0))
      (by decide +kernel)
  rw [decide_eq_true_eq] at passed
  exact ⟨tx1, fComplete1, tx2, fComplete2, first, second, passed.1, passed.2⟩

end Concrete

end InfiniteRicks
