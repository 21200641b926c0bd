import InfiniteRicks.Signing

/-!
# What signatures depend on

Scripts see a transaction through its signature hashes, and these leave out the `scriptSig`s.
So the verdict on one input, and what `SignSignature` puts into it, do not depend on what
stands in the others.
-/

namespace InfiniteRicks

theorem SameUnsigned.refl (tx : CTransaction) : SameUnsigned tx tx := ⟨rfl, rfl, rfl, rfl, rfl, rfl⟩

theorem SameUnsigned.symm {left right : CTransaction} (same : SameUnsigned left right) : SameUnsigned right left :=
  ⟨same.nVersion.symm, same.nTime.symm, same.prevouts.symm, same.sequences.symm, same.vout.symm,
    same.nLockTime.symm⟩

theorem SameUnsigned.trans {left middle right : CTransaction} (first : SameUnsigned left middle)
    (second : SameUnsigned middle right) : SameUnsigned left right :=
  ⟨first.nVersion.trans second.nVersion, first.nTime.trans second.nTime, first.prevouts.trans second.prevouts,
    first.sequences.trans second.sequences, first.vout.trans second.vout, first.nLockTime.trans second.nLockTime⟩

/-- Setting a `scriptSig` keeps the sequence numbers. -/
theorem CTxIn.modify_sequences (vin : List CTxIn) (nIn : Nat) (scriptSig : CScript) :
    (vin.modify nIn fun txin => { txin with scriptSig := scriptSig }).map CTxIn.nSequence =
      vin.map CTxIn.nSequence := by
  refine List.ext_getElem? fun i => ?_
  simp only [List.getElem?_map, List.getElem?_modify]
  cases vin[i]? with
  | none => rfl
  | some txin =>
      simp only [Option.map_some, Option.map_eq_map]
      split <;> rfl

theorem CTransaction.setScriptSig_same (tx : CTransaction) (nIn : Nat) (scriptSig : CScript) :
    SameUnsigned (tx.setScriptSig nIn scriptSig) tx :=
  ⟨rfl, rfl, CTxIn.modify_prevouts _ _ _, CTxIn.modify_sequences _ _ _, rfl, rfl⟩

/-- Two contexts whose transactions differ in their `scriptSig`s at most. -/
structure SameContext (ctx other : EvalContext) : Prop where
  crypto : ctx.crypto = other.crypto
  unsigned : SameUnsigned ctx.txTo other.txTo
  nIn : ctx.nIn = other.nIn
  nHashType : ctx.nHashType = other.nHashType

namespace SameContext

variable {ctx other : EvalContext}

theorem checkCanonicalSig (same : SameContext ctx other) (vchSig vchPubKey : Bytes) (scriptCode : CScript) :
    checkCanonicalSig ctx vchSig vchPubKey scriptCode = checkCanonicalSig other vchSig vchPubKey scriptCode := by
  have hash := fun nHashType =>
    signatureHash_congr other.crypto.hash scriptCode other.nIn nHashType same.unsigned
  simp only [InfiniteRicks.checkCanonicalSig, checkSig, SigCheck.hashType, SigCheck.sigData, SigCheck.signature,
    same.crypto, same.nIn, same.nHashType, hash]

theorem multiSigLoop (same : SameContext ctx other) (scriptCode : CScript) (nKeysCount nSigsCount ikey isig : Nat) :
    multiSigLoop ctx scriptCode nKeysCount nSigsCount ikey isig =
      multiSigLoop other scriptCode nKeysCount nSigsCount ikey isig := by
  induction nKeysCount generalizing nSigsCount ikey isig with
  | zero => cases nSigsCount <;> rfl
  | succ nKeysCount ih =>
      cases nSigsCount with
      | zero => rfl
      | succ nSigsCount => simp only [InfiniteRicks.multiSigLoop, same.checkCanonicalSig, ih]

theorem execOpcode (same : SameContext ctx other) (fExec : Bool) (pc : CScript) (opcode : Option Opcode) :
    execOpcode ctx fExec pc opcode = execOpcode other fExec pc opcode := by
  have checkSig : ∀ verify, execCheckSig ctx verify = execCheckSig other verify := by
    intro verify
    simp only [execCheckSig, same.checkCanonicalSig]
  have checkMultiSig : ∀ verify, execCheckMultiSig ctx verify = execCheckMultiSig other verify := by
    intro verify
    simp only [execCheckMultiSig, countKeys, InfiniteRicks.checkMultiSig, same.multiSigLoop]
  unfold InfiniteRicks.execOpcode
  split <;> simp only [same.crypto, checkSig, checkMultiSig]

theorem evalLoop (same : SameContext ctx other) (fuel : Nat) (pc : CScript) :
    evalLoop ctx fuel pc = evalLoop other fuel pc := by
  induction fuel generalizing pc with
  | zero => cases pc <;> rfl
  | succ fuel ih =>
      cases pc with
      | nil => rfl
      | cons opcode pc => simp only [InfiniteRicks.evalLoop, evalStep, dispatch, same.execOpcode, ih]

theorem evalScript (same : SameContext ctx other) (stack : List Bytes) (script : CScript) :
    evalScript ctx stack script = evalScript other stack script := by
  simp only [InfiniteRicks.evalScript, evalBody, same.evalLoop]

theorem verifyScript (same : SameContext ctx other) (scriptSig scriptPubKey : CScript) :
    verifyScript ctx scriptSig scriptPubKey = verifyScript other scriptSig scriptPubKey := by
  simp only [InfiniteRicks.verifyScript, verifyRedeem, same.evalScript]

end SameContext

namespace CKeyStore

variable {crypto : SignCrypto} (store : CKeyStore crypto.toKeyCrypto) (signer : Signer)

theorem signedScript_congr (fromPubKey : CScript) (nIn : Nat) (nHashType : Int32) {txTo other : CTransaction}
    (same : SameUnsigned txTo other) :
    store.signedScript signer fromPubKey txTo nIn nHashType =
      store.signedScript signer fromPubKey other nIn nHashType := by
  have hash := signatureHash_congr crypto.hash fromPubKey nIn nHashType same
  have hash2 := fun subscript => signatureHash_congr crypto.hash subscript nIn nHashType
    (((txTo.setScriptSig_same nIn subscript).trans same).trans (other.setScriptSig_same nIn subscript).symm)
  simp only [signedScript, hash, hash2]

end CKeyStore

end InfiniteRicks
