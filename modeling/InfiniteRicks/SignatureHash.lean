import InfiniteRicks.Serialize

/-!
# Signature hashes

`CScript::FindAndDelete` and `SignatureHash` (`script.h`, `script.cpp`). The copy of
the transaction is edited for the hash type and serialized; `AgreeOn` says on which
fields two transactions have to agree for the edited copies to be the same.
-/

namespace InfiniteRicks

open Library Library.Codec

namespace CScript

/-- The inner loop of `FindAndDelete`: erase the copies of `b` at the current position. The fuel is the
number of bytes there. -/
def eraseCopies (b : CScript) : Nat → CScript → CScript
  | 0, pc => pc
  | fuel + 1, pc => if b.isPrefixOf pc then eraseCopies b fuel (pc.drop b.length) else pc

/-- The outer loop: after the copies, go on behind the next instruction. -/
def findAndDeleteLoop (b : CScript) : Nat → CScript → CScript
  | 0, pc => pc
  | fuel + 1, pc =>
      let pc := eraseCopies b pc.length pc
      match getOp pc with
      | none => pc
      | some (_, _, next) => pc.take (pc.length - next.length) ++ findAndDeleteLoop b fuel next

/-- `CScript::FindAndDelete`: the script afterwards. -/
def findAndDelete (script b : CScript) : CScript :=
  if b.isEmpty then script else findAndDeleteLoop b (script.length + 1) script

def opCodeSeparator : UInt8 := 0xab

end CScript

/-- `SIGHASH_ALL`, `SIGHASH_NONE`, `SIGHASH_SINGLE` and `SIGHASH_ANYONECANPAY`. -/
def sighashAll : Int32 := 1
def sighashNone : Int32 := 2
def sighashSingle : Int32 := 3
def sighashAnyoneCanPay : Int32 := 0x80

/-- `(nHashType & 0x1f) == SIGHASH_NONE`. -/
def isSighashNone (nHashType : Int32) : Bool := nHashType &&& 0x1f = sighashNone

/-- `(nHashType & 0x1f) == SIGHASH_SINGLE`. -/
def isSighashSingle (nHashType : Int32) : Bool := nHashType &&& 0x1f = sighashSingle

/-- `nHashType & SIGHASH_ANYONECANPAY`. -/
def anyoneCanPay (nHashType : Int32) : Bool := nHashType &&& sighashAnyoneCanPay ≠ 0

/-- `CTxOut::SetNull`. -/
def CTxOut.null : CTxOut := ⟨-1, []⟩

/-- Blank out the signatures, and put the script code in the input that is signed. -/
def blankScripts (scriptCode : CScript) (nIn : Nat) (vin : List CTxIn) : List CTxIn :=
  vin.mapIdx fun i txin => { txin with scriptSig := if i = nIn then scriptCode else [] }

/-- Let the others update at will. -/
def zeroSequences (nIn : Nat) (vin : List CTxIn) : List CTxIn :=
  vin.mapIdx fun i txin => if i = nIn then txin else { txin with nSequence := 0 }

/-- Only lock in the output at the index of the input. -/
def singleOutput (nOut : Nat) (vout : List CTxOut) : List CTxOut :=
  (vout.take (nOut + 1)).mapIdx fun i txout => if i < nOut then CTxOut.null else txout

/-- The copy of the transaction that `SignatureHash` serializes; `none` where it returns 1 for an output
that is not there. -/
def signatureTx (scriptCode : CScript) (txTo : CTransaction) (nIn : Nat) (nHashType : Int32) :
    Option CTransaction :=
  let scriptCode := scriptCode.findAndDelete [CScript.opCodeSeparator]
  let txTmp := { txTo with vin := blankScripts scriptCode nIn txTo.vin }
  let blanked : Option CTransaction :=
    if isSighashNone nHashType then some { txTmp with vout := [], vin := zeroSequences nIn txTmp.vin }
    else if isSighashSingle nHashType then
      if txTmp.vout.length ≤ nIn then none
      else some { txTmp with vout := singleOutput nIn txTmp.vout, vin := zeroSequences nIn txTmp.vin }
    else some txTmp
  blanked.map fun txTmp =>
    if anyoneCanPay nHashType then { txTmp with vin := txTmp.vin[nIn]?.toList } else txTmp

/-- The bytes that are hashed; `none` where `SignatureHash` returns 1. -/
def signatureMessage (scriptCode : CScript) (txTo : CTransaction) (nIn : Nat) (nHashType : Int32) :
    Option Bytes :=
  if txTo.vin.length ≤ nIn then none
  else (signatureTx scriptCode txTo nIn nHashType).map fun txTmp => txTmp.serialize ++ writeInt32 nHashType

/-- `SignatureHash`, for the hash function `Hash`. -/
def signatureHash (hash : Bytes → UInt256) (scriptCode : CScript) (txTo : CTransaction) (nIn : Nat)
    (nHashType : Int32) : UInt256 :=
  ((signatureMessage scriptCode txTo nIn nHashType).map hash).getD 1

/-- The hash type leaves the sequence numbers of the other inputs out. -/
def freesSequences (nHashType : Int32) : Bool := isSighashNone nHashType || isSighashSingle nHashType

/-- The transactions agree on the inputs that the hash type commits to. -/
def InputsAgree (nHashType : Int32) (nIn : Nat) (left right : List CTxIn) : Prop :=
  if anyoneCanPay nHashType then
    left[nIn]?.map CTxIn.prevout = right[nIn]?.map CTxIn.prevout ∧
      left[nIn]?.map CTxIn.nSequence = right[nIn]?.map CTxIn.nSequence
  else
    left.map CTxIn.prevout = right.map CTxIn.prevout ∧
      if freesSequences nHashType then left[nIn]?.map CTxIn.nSequence = right[nIn]?.map CTxIn.nSequence
      else left.map CTxIn.nSequence = right.map CTxIn.nSequence

/-- The transactions agree on the outputs that the hash type commits to: none, one or all. -/
def OutputsAgree (nHashType : Int32) (nIn : Nat) (left right : List CTxOut) : Prop :=
  if isSighashNone nHashType then True
  else if isSighashSingle nHashType then left[nIn]? = right[nIn]?
  else left = right

/-- The fields that a hash type commits to are the same in both transactions. -/
structure AgreeOn (nHashType : Int32) (nIn : Nat) (left right : CTransaction) : Prop where
  nVersion : left.nVersion = right.nVersion
  nTime : left.nTime = right.nTime
  nLockTime : left.nLockTime = right.nLockTime
  inputs : InputsAgree nHashType nIn left.vin right.vin
  outputs : OutputsAgree nHashType nIn left.vout right.vout

/-- The inputs of the edited copy. -/
def editedInputs (scriptCode : CScript) (nIn : Nat) (nHashType : Int32) (vin : List CTxIn) : List CTxIn :=
  let vin := blankScripts scriptCode nIn vin
  let vin := if freesSequences nHashType then zeroSequences nIn vin else vin
  if anyoneCanPay nHashType then vin[nIn]?.toList else vin

/-- The outputs of the edited copy. -/
def editedOutputs (nIn : Nat) (nHashType : Int32) (vout : List CTxOut) : List CTxOut :=
  if isSighashNone nHashType then []
  else if isSighashSingle nHashType then singleOutput nIn vout
  else vout

theorem isSighashSingle_of_none {nHashType : Int32} (none : isSighashNone nHashType = true) :
    isSighashSingle nHashType = false := by
  simp only [isSighashNone, isSighashSingle, decide_eq_true_eq, decide_eq_false_iff_not] at none ⊢
  rw [none]
  decide

theorem signatureTx_eq {scriptCode : CScript} {txTo : CTransaction} {nIn : Nat} {nHashType : Int32}
    (output : isSighashSingle nHashType = true → nIn < txTo.vout.length) :
    signatureTx scriptCode txTo nIn nHashType =
      some { txTo with
        vin := editedInputs (scriptCode.findAndDelete [CScript.opCodeSeparator]) nIn nHashType txTo.vin
        vout := editedOutputs nIn nHashType txTo.vout } := by
  by_cases none : isSighashNone nHashType = true
  · have notSingle := isSighashSingle_of_none none
    simp only [signatureTx, editedInputs, editedOutputs, freesSequences, none, notSingle, Bool.true_or, if_true,
      Option.map_some]
    split_ifs <;> rfl
  by_cases single : isSighashSingle nHashType = true
  · have inRange := Nat.not_le.mpr (output single)
    simp only [signatureTx, editedInputs, editedOutputs, freesSequences, none, single, inRange, Bool.or_true,
      if_true, if_false, Option.map_some, Bool.false_eq_true]
    split_ifs <;> rfl
  · simp only [signatureTx, editedInputs, editedOutputs, freesSequences, none, single, Bool.or_self, if_false,
      Option.map_some, Bool.false_eq_true]
    split_ifs <;> rfl

/-- What the edited copy keeps of an input. -/
def editedInput (scriptCode : CScript) (nIn : Nat) (frees : Bool) (i : Nat) (txin : CTxIn) : CTxIn :=
  ⟨txin.prevout, if i = nIn then scriptCode else [], if frees = true ∧ i ≠ nIn then 0 else txin.nSequence⟩

theorem getElem?_edited (scriptCode : CScript) (nIn : Nat) (frees : Bool) (vin : List CTxIn) (i : Nat) :
    (if frees then zeroSequences nIn (blankScripts scriptCode nIn vin) else blankScripts scriptCode nIn vin)[i]? =
      vin[i]?.map (editedInput scriptCode nIn frees i) := by
  cases frees with
  | false =>
      simp only [Bool.false_eq_true, if_false, blankScripts, List.getElem?_mapIdx]
      cases vin[i]? with
      | none => rfl
      | some txin => simp [editedInput]
  | true =>
      simp only [if_true, zeroSequences, blankScripts, List.getElem?_mapIdx]
      cases vin[i]? with
      | none => rfl
      | some txin =>
          by_cases own : i = nIn
          · simp [editedInput, own]
          · simp [editedInput, own]

theorem editedInput_eq_iff {scriptCode : CScript} {nIn : Nat} {frees : Bool} {i : Nat} {left right : Option CTxIn} :
    left.map (editedInput scriptCode nIn frees i) = right.map (editedInput scriptCode nIn frees i) ↔
      left.map CTxIn.prevout = right.map CTxIn.prevout ∧
        (frees = true ∧ i ≠ nIn ∨ left.map CTxIn.nSequence = right.map CTxIn.nSequence) := by
  cases left with
  | none => cases right <;> simp
  | some left =>
      cases right with
      | none => simp
      | some right =>
          simp only [Option.map_some, Option.some.injEq, editedInput, CTxIn.mk.injEq, true_and]
          by_cases freed : frees = true ∧ i ≠ nIn
          · simp only [freed, ne_eq, not_false_eq_true, and_self, if_true, true_or, and_true]
          · simp only [freed, if_false, false_or]

theorem map_eq_map_iff {α β : Type} (f : α → β) {left right : List α} :
    left.map f = right.map f ↔ ∀ i : Nat, left[i]?.map f = right[i]?.map f := by
  rw [List.ext_getElem?_iff]
  simp only [List.getElem?_map]

/-- The edited inputs are the same exactly when the inputs agree on what the hash type commits to. -/
theorem editedInputs_eq_iff (scriptCode : CScript) {nIn : Nat} (nHashType : Int32) {left right : List CTxIn}
    (leftRange : nIn < left.length) (rightRange : nIn < right.length) :
    editedInputs scriptCode nIn nHashType left = editedInputs scriptCode nIn nHashType right ↔
      InputsAgree nHashType nIn left right := by
  unfold editedInputs InputsAgree
  by_cases acp : anyoneCanPay nHashType = true
  · simp only [acp, if_true, getElem?_edited]
    rw [List.getElem?_eq_getElem leftRange, List.getElem?_eq_getElem rightRange]
    simp only [Option.map_some, Option.toList_some, List.cons.injEq, and_true]
    have own := @editedInput_eq_iff scriptCode nIn (freesSequences nHashType) nIn (some left[nIn]) (some right[nIn])
    simp only [Option.map_some, Option.some.injEq, ne_eq, not_true_eq_false, and_false, false_or] at own ⊢
    exact own
  · simp only [acp, if_false, Bool.false_eq_true]
    rw [List.ext_getElem?_iff]
    simp only [getElem?_edited, editedInput_eq_iff]
    rw [map_eq_map_iff]
    constructor
    · intro each
      refine ⟨fun i => (each i).1, ?_⟩
      split_ifs with frees
      · exact (each nIn).2.resolve_left fun other => other.2 rfl
      · rw [map_eq_map_iff]
        exact fun i => (each i).2.resolve_left fun other => frees other.1
    · rintro ⟨prevouts, sequences⟩ i
      refine ⟨prevouts i, ?_⟩
      by_cases frees : freesSequences nHashType = true
      · rw [if_pos frees] at sequences
        by_cases own : i = nIn
        · subst own
          exact Or.inr sequences
        · exact Or.inl ⟨frees, own⟩
      · rw [if_neg frees, map_eq_map_iff] at sequences
        exact Or.inr (sequences i)

theorem getElem?_singleOutput {nOut : Nat} {vout : List CTxOut} (inRange : nOut < vout.length) (i : Nat) :
    (singleOutput nOut vout)[i]? =
      if i < nOut then some CTxOut.null else if i = nOut then vout[nOut]? else none := by
  simp only [singleOutput, List.getElem?_mapIdx, List.getElem?_take]
  by_cases before : i < nOut
  · simp [before, Nat.lt_succ_of_lt before, List.getElem?_eq_getElem (before.trans inRange)]
  by_cases own : i = nOut
  · subst own
    simp [List.getElem?_eq_getElem inRange]
  · have after : ¬ i < nOut + 1 := by omega
    simp [before, own, after]

theorem editedOutputs_eq_iff {nIn : Nat} {nHashType : Int32} {left right : List CTxOut}
    (leftRange : isSighashSingle nHashType = true → nIn < left.length)
    (rightRange : isSighashSingle nHashType = true → nIn < right.length) :
    editedOutputs nIn nHashType left = editedOutputs nIn nHashType right ↔
      OutputsAgree nHashType nIn left right := by
  unfold editedOutputs OutputsAgree
  split_ifs with none single
  · exact Iff.of_eq (eq_self _)
  · rw [List.ext_getElem?_iff]
    simp only [getElem?_singleOutput (leftRange single), getElem?_singleOutput (rightRange single)]
    constructor
    · intro each
      simpa using each nIn
    · intro same i
      rw [same]
  · exact Iff.rfl

theorem CScript.length_eraseCopies_le (b : CScript) (fuel : Nat) (pc : CScript) :
    (eraseCopies b fuel pc).length ≤ pc.length := by
  induction fuel generalizing pc with
  | zero => exact le_rfl
  | succ fuel ih =>
      rw [eraseCopies]
      split_ifs
      · exact (ih _).trans (by rw [List.length_drop]; omega)
      · exact le_rfl

theorem CScript.length_findAndDeleteLoop_le (b : CScript) (fuel : Nat) (pc : CScript) :
    (findAndDeleteLoop b fuel pc).length ≤ pc.length := by
  induction fuel generalizing pc with
  | zero => exact le_rfl
  | succ fuel ih =>
      have erased := length_eraseCopies_le b pc.length pc
      rw [findAndDeleteLoop]
      split
      · exact erased
      · rename_i next instruction
        have shorter := ih next
        have after := length_of_getOp instruction
        rw [List.length_append, List.length_take]
        omega

/-- Deleting does not make a script longer. -/
theorem CScript.length_findAndDelete_le (script b : CScript) : (script.findAndDelete b).length ≤ script.length := by
  rw [findAndDelete]
  split_ifs
  · exact le_rfl
  · exact length_findAndDeleteLoop_le b _ script

/-- The edited inputs, each written at once. -/
theorem editedInputs_eq (scriptCode : CScript) (nIn : Nat) (nHashType : Int32) (vin : List CTxIn) :
    editedInputs scriptCode nIn nHashType vin =
      if anyoneCanPay nHashType then
        (vin.mapIdx (editedInput scriptCode nIn (freesSequences nHashType)))[nIn]?.toList
      else vin.mapIdx (editedInput scriptCode nIn (freesSequences nHashType)) := by
  have edited : (if freesSequences nHashType then zeroSequences nIn (blankScripts scriptCode nIn vin)
      else blankScripts scriptCode nIn vin) = vin.mapIdx (editedInput scriptCode nIn (freesSequences nHashType)) := by
    refine List.ext_getElem? fun i => ?_
    rw [getElem?_edited, List.getElem?_mapIdx]
  simp only [editedInputs, edited]

theorem length_editedInputs_le (scriptCode : CScript) (nIn : Nat) (nHashType : Int32) (vin : List CTxIn) :
    (editedInputs scriptCode nIn nHashType vin).length ≤ vin.length := by
  rw [editedInputs_eq]
  split_ifs
  · rw [List.getElem?_mapIdx]
    cases here : vin[nIn]? with
    | none => exact Nat.zero_le _
    | some txin =>
        have inRange := (List.getElem?_eq_some_iff.mp here).1
        simp only [Option.map_some, Option.toList_some, List.length_singleton]
        omega
  · rw [List.length_mapIdx]

theorem scriptSig_of_mem_editedInputs {scriptCode : CScript} {nIn : Nat} {nHashType : Int32} {vin : List CTxIn}
    {txin : CTxIn} (member : txin ∈ editedInputs scriptCode nIn nHashType vin) :
    txin.scriptSig = scriptCode ∨ txin.scriptSig = [] := by
  have edited : ∃ i : Nat, (vin.mapIdx (editedInput scriptCode nIn (freesSequences nHashType)))[i]? = some txin := by
    rw [editedInputs_eq] at member
    split_ifs at member
    · exact ⟨nIn, Option.mem_toList.mp member⟩
    · exact List.mem_iff_getElem?.mp member
  obtain ⟨i, found⟩ := edited
  rw [List.getElem?_mapIdx, Option.map_eq_some_iff] at found
  obtain ⟨original, -, rfl⟩ := found
  simp only [editedInput]
  split_ifs
  · exact Or.inl rfl
  · exact Or.inr rfl

theorem mem_editedOutputs {nIn : Nat} {nHashType : Int32} {vout : List CTxOut} {txout : CTxOut}
    (member : txout ∈ editedOutputs nIn nHashType vout) : txout ∈ vout ∨ txout = CTxOut.null := by
  simp only [editedOutputs] at member
  split_ifs at member
  · cases member
  · obtain ⟨i, found⟩ := List.mem_iff_getElem?.mp member
    simp only [singleOutput, List.getElem?_mapIdx, Option.map_eq_some_iff] at found
    obtain ⟨original, here, rfl⟩ := found
    split_ifs
    · exact Or.inr rfl
    · exact Or.inl (List.mem_of_mem_take (List.mem_of_getElem? here))
  · exact Or.inl member

/-- The edited copy is no larger than a C++ object can be. -/
theorem sized_edited {scriptCode : CScript} {tx : CTransaction} (small : scriptCode.length < 2 ^ 64)
    (sized : tx.Sized) (nIn : Nat) (nHashType : Int32) :
    CTransaction.Sized { tx with
      vin := editedInputs (scriptCode.findAndDelete [CScript.opCodeSeparator]) nIn nHashType tx.vin
      vout := editedOutputs nIn nHashType tx.vout } := by
  refine ⟨⟨(length_editedInputs_le _ _ _ _).trans_lt sized.vin.1, ?_⟩, ?_, ?_⟩
  · intro txin member
    have code := CScript.length_findAndDelete_le scriptCode [CScript.opCodeSeparator]
    rcases scriptSig_of_mem_editedInputs member with own | other
    · rw [own]
      omega
    · rw [other]
      decide
  · have bound := sized.vout.1
    simp only [editedOutputs, singleOutput]
    split_ifs
    · decide
    · rw [List.length_mapIdx, List.length_take]
      omega
    · exact bound
  · intro txout member
    rcases mem_editedOutputs member with old | rfl
    · exact sized.vout.2 txout old
    · decide

/-- The hash function tells the two messages apart. -/
def NoCollision (hash : Bytes → UInt256) (left right : Option Bytes) : Prop :=
  left.map hash = right.map hash → left = right

instance (hash : Bytes → UInt256) (left right : Option Bytes) : Decidable (NoCollision hash left right) :=
  inferInstanceAs (Decidable (_ → _))

/-- Two transactions that differ in their `scriptSig`s at most. -/
structure SameUnsigned (left right : CTransaction) : Prop where
  nVersion : left.nVersion = right.nVersion
  nTime : left.nTime = right.nTime
  prevouts : left.vin.map CTxIn.prevout = right.vin.map CTxIn.prevout
  sequences : left.vin.map CTxIn.nSequence = right.vin.map CTxIn.nSequence
  vout : left.vout = right.vout
  nLockTime : left.nLockTime = right.nLockTime

theorem SameUnsigned.length {left right : CTransaction} (same : SameUnsigned left right) :
    left.vin.length = right.vin.length := by
  simpa using congrArg List.length same.prevouts

/-- A signature hash does not depend on the `scriptSig`s. -/
theorem signatureHash_congr (hash : Bytes → UInt256) (scriptCode : CScript) (nIn : Nat) (nHashType : Int32)
    {left right : CTransaction} (same : SameUnsigned left right) :
    signatureHash hash scriptCode left nIn nHashType = signatureHash hash scriptCode right nIn nHashType := by
  have blank : ∀ code, blankScripts code nIn left.vin = blankScripts code nIn right.vin := by
    intro code
    refine List.ext_getElem? fun i => ?_
    have editedLeft := getElem?_edited code nIn false left.vin i
    have editedRight := getElem?_edited code nIn false right.vin i
    simp only [Bool.false_eq_true, if_false] at editedLeft editedRight
    rw [editedLeft, editedRight, editedInput_eq_iff]
    exact ⟨(map_eq_map_iff _).mp same.prevouts i, Or.inr ((map_eq_map_iff _).mp same.sequences i)⟩
  simp only [signatureHash, signatureMessage, signatureTx, blank, same.length, same.nVersion, same.nTime, same.vout,
    same.nLockTime]

/-- A signature hash does not depend on the `scriptSig`s; two transactions have the same one, for the same
script code and hash type, exactly when they agree on the fields that the hash type commits to. -/
theorem signatureHash_commits (hash : Bytes → UInt256) {scriptCode : CScript} (nIn : Nat) (nHashType : Int32)
    (small : scriptCode.length < 2 ^ 64) :
    (∀ (tx : CTransaction) (vin : List CTxIn), vin.map CTxIn.prevout = tx.vin.map CTxIn.prevout →
      vin.map CTxIn.nSequence = tx.vin.map CTxIn.nSequence →
      signatureHash hash scriptCode { tx with vin := vin } nIn nHashType =
        signatureHash hash scriptCode tx nIn nHashType) ∧
    ∀ left right : CTransaction, left.Sized → right.Sized →
      nIn < left.vin.length → nIn < right.vin.length →
      (isSighashSingle nHashType = true → nIn < left.vout.length ∧ nIn < right.vout.length) →
      NoCollision hash (signatureMessage scriptCode left nIn nHashType)
        (signatureMessage scriptCode right nIn nHashType) →
      (signatureHash hash scriptCode left nIn nHashType = signatureHash hash scriptCode right nIn nHashType ↔
        AgreeOn nHashType nIn left right) := by
  refine ⟨?_, ?_⟩
  · intro tx vin prevouts sequences
    exact signatureHash_congr hash scriptCode nIn nHashType ⟨rfl, rfl, prevouts, sequences, rfl, rfl⟩
  · intro left right leftSized rightSized leftRange rightRange outputs noCollision
    have message : ∀ {tx : CTransaction}, nIn < tx.vin.length →
        (isSighashSingle nHashType = true → nIn < tx.vout.length) →
        signatureMessage scriptCode tx nIn nHashType =
          some (CTransaction.serialize { tx with
            vin := editedInputs (scriptCode.findAndDelete [CScript.opCodeSeparator]) nIn nHashType tx.vin
            vout := editedOutputs nIn nHashType tx.vout } ++ writeInt32 nHashType) := by
      intro tx inRange output
      rw [signatureMessage, if_neg (Nat.not_le.mpr inRange), signatureTx_eq output]
      rfl
    have leftMessage := message leftRange fun single => (outputs single).1
    have rightMessage := message rightRange fun single => (outputs single).2
    have inputs := editedInputs_eq_iff (scriptCode.findAndDelete [CScript.opCodeSeparator]) nHashType leftRange
      rightRange
    have outs := editedOutputs_eq_iff (fun single => (outputs single).1) fun single => (outputs single).2
    constructor
    · intro same
      have messages := noCollision (by
        rw [leftMessage, rightMessage]
        rw [signatureHash, signatureHash, leftMessage, rightMessage] at same
        exact congrArg some same)
      rw [leftMessage, rightMessage, Option.some.injEq] at messages
      have txs := (CTransaction.serialize_code (sized_edited small leftSized nIn nHashType)
        (sized_edited small rightSized nIn nHashType) messages).1
      simp only [CTransaction.mk.injEq] at txs
      obtain ⟨nVersion, nTime, vin, vout, nLockTime⟩ := txs
      exact ⟨nVersion, nTime, nLockTime, inputs.mp vin, outs.mp vout⟩
    · rintro ⟨nVersion, nTime, nLockTime, vin, vout⟩
      rw [signatureHash, signatureHash, leftMessage, rightMessage, nVersion, nTime, nLockTime, inputs.mpr vin,
        outs.mpr vout]

section Concrete

/-- A stand-in for `Hash` that keeps the last 32 bytes. -/
def lastBytes (bytes : Bytes) : UInt256 := BitVec.ofNat 256 (CScript.littleEndian bytes.reverse)

/-- The same payment with another amount and another `scriptSig`. -/
def raisedTx : CTransaction := ⟨1, 1000, [⟨⟨7, 0⟩, [], 0xffffffff⟩], [⟨501, [0x51, 0x52]⟩], 0⟩

theorem sized_sample : sampleTx.Sized ∧ raisedTx.Sized := by
  refine ⟨⟨⟨by decide, ?_⟩, by decide, ?_⟩, ⟨by decide, ?_⟩, by decide, ?_⟩
  all_goals simp [sampleTx, raisedTx]

theorem signatureHash_sample :
    signatureHash lastBytes [0x51] sampleTx 0 sighashNone = signatureHash lastBytes [0x51] raisedTx 0 sighashNone ∧
      signatureHash lastBytes [0x51] sampleTx 0 sighashAll ≠ signatureHash lastBytes [0x51] raisedTx 0 sighashAll := by
  have noneCommits := (@signatureHash_commits lastBytes [0x51] 0 sighashNone (by decide)).2 sampleTx raisedTx
    sized_sample.1 sized_sample.2 (by decide) (by decide) (by decide) (by decide +kernel)
  have allCommits := (@signatureHash_commits lastBytes [0x51] 0 sighashAll (by decide)).2 sampleTx raisedTx
    sized_sample.1 sized_sample.2 (by decide) (by decide) (by decide) (by decide +kernel)
  refine ⟨noneCommits.mpr ⟨rfl, rfl, rfl, by unfold InputsAgree; decide, trivial⟩, fun same => ?_⟩
  have outputs := (allCommits.mp same).outputs
  unfold OutputsAgree at outputs
  revert outputs
  decide

end Concrete

end InfiniteRicks
