import InfiniteRicks.InterpreterSpec
import InfiniteRicks.Library.Assignment

/-!
# `OP_CHECKMULTISIG`

The loop of the opcode takes the keys in order and never goes back. `MultiSigArguments`
says what has been tested when the loop is entered; from there the run of the opcode is
computed exactly, and the loop is `greedy` of the library on the signatures and keys that
lie on the stack.
-/

namespace InfiniteRicks

open Library.Hoare Library.Assignment

/-- What the loop asks of a signature and a key. -/
def EvalContext.accepts (ctx : EvalContext) (scriptCode : CScript) (vchSig vchPubKey : Bytes) : Bool :=
  isCanonicalSignature vchSig && isCanonicalPubKey vchPubKey &&
    checkSig ctx.crypto ⟨vchSig, vchPubKey, scriptCode, ctx.txTo, ctx.nIn, ctx.nHashType⟩

/-- `count` elements of a stack from `stacktop(-i)` downwards. -/
def Stacks.slice (s : Stacks) (i count : Nat) : List Bytes := (s.stack.drop (i - 1)).take count

/-- A state that reaches the loop with `nSigsCount` signatures and `nKeysCount` keys. -/
structure MultiSigArguments (s : EvalState) (nKeysCount nSigsCount : Nat) : Prop where
  keys : readCount 1 s.toStacks = .ok (nKeysCount : Int) s.toStacks
  keysRange : nKeysCount ≤ 20
  opcodes : s.nOpCount + nKeysCount ≤ 201
  sigs : readCount (2 + nKeysCount) s.toStacks = .ok (nSigsCount : Int) s.toStacks
  sigsRange : nSigsCount ≤ nKeysCount
  deep : 3 + nKeysCount + nSigsCount ≤ s.stack.length

/-- The script code of the opcode: the script without the signatures. -/
def EvalState.multiSigCode (s : EvalState) (nKeysCount nSigsCount : Nat) : CScript :=
  (s.slice (3 + nKeysCount) nSigsCount).foldl (fun code vchSig => code.findAndDelete (CScript.pushData vchSig))
    s.pbegincodehash

theorem returnFalseIf_ok {σ : Type} {s : σ} {condition : Prop} [Decidable condition] (fails : ¬ condition) :
    returnFalseIf condition s = .ok () s := by
  rw [returnFalseIf, if_neg fails]
  rfl

section Stack

variable {s : Stacks} {i : Nat}

theorem Stacks.slice_succ {count : Nat} (positive : 0 < i) (inside : i - 1 < s.stack.length) :
    s.slice i (count + 1) = s.stack[i - 1] :: s.slice (i + 1) count := by
  rw [slice, slice, List.drop_eq_getElem_cons inside, List.take_succ_cons, Nat.sub_add_cancel positive, Nat.add_sub_cancel]

theorem stacktop_ok (inside : i - 1 < s.stack.length) : stacktop i s = .ok s.stack[i - 1] s := by
  refine (bind_ok rfl).trans ?_
  rw [List.getElem?_eq_getElem inside]
  rfl

theorem need_ok {n : Nat} (deep : n ≤ s.stack.length) : need n s = .ok () s := by
  exact (bind_ok rfl).trans (returnFalseIf_ok (Nat.not_lt.mpr deep))

theorem dropSignatures_ok {count : Nat} {scriptCode : CScript} (positive : 0 < i)
    (inside : i - 1 + count ≤ s.stack.length) :
    dropSignatures i count scriptCode s =
      .ok ((s.slice i count).foldl (fun code vchSig => code.findAndDelete (CScript.pushData vchSig)) scriptCode) s := by
  induction count generalizing i scriptCode with
  | zero => rfl
  | succ count ih =>
      rw [dropSignatures, bind_ok (stacktop_ok (by omega)), ih (Nat.succ_pos i) (by omega),
        Stacks.slice_succ positive (by omega)]
      rfl

theorem popMany_ok {count : Nat} (deep : count ≤ s.stack.length) :
    popMany count s = .ok () { s with stack := s.stack.drop count } := by
  induction count generalizing s with
  | zero => rfl
  | succ count ih =>
      obtain ⟨stack, altstack⟩ := s
      cases stack with
      | nil => cases deep
      | cons top rest => exact ih (Nat.le_of_succ_le_succ deep)

end Stack

section Opcode

variable {ctx : EvalContext} {s : EvalState}

theorem onStacks_ok {α : Type} {program : StackM α} {value : α} {after : Stacks}
    (run : program s.toStacks = .ok value after) : onStacks program s = .ok value { s with toStacks := after } := by
  rw [onStacks, run]

/-- The check of a signature only counts. -/
theorem checkCanonicalSig_ok (vchSig vchPubKey : Bytes) (scriptCode : CScript) :
    ∃ nCheckSigs, checkCanonicalSig ctx vchSig vchPubKey scriptCode s =
      .ok (ctx.accepts scriptCode vchSig vchPubKey) { s with nCheckSigs := nCheckSigs } := by
  rw [checkCanonicalSig, EvalContext.accepts]
  cases isCanonicalSignature vchSig && isCanonicalPubKey vchPubKey with
  | false => exact ⟨s.nCheckSigs, rfl⟩
  | true => exact ⟨s.nCheckSigs + 1, rfl⟩

/-- The loop is the greedy assignment of the signatures to the keys. -/
theorem multiSigLoop_ok (scriptCode : CScript) {nKeysCount nSigsCount ikey isig : Nat}
    (positive : 0 < ikey ∧ 0 < isig) (keys : ikey - 1 + nKeysCount ≤ s.stack.length)
    (sigs : isig - 1 + nSigsCount ≤ s.stack.length) (fewer : nSigsCount ≤ nKeysCount) :
    ∃ nCheckSigs, multiSigLoop ctx scriptCode nKeysCount nSigsCount ikey isig s =
      .ok (greedy (ctx.accepts scriptCode) (s.slice isig nSigsCount) (s.slice ikey nKeysCount))
        { s with nCheckSigs := nCheckSigs } := by
  induction nKeysCount generalizing s nSigsCount ikey isig with
  | zero =>
      obtain rfl : nSigsCount = 0 := by omega
      exact ⟨s.nCheckSigs, rfl⟩
  | succ nKeysCount ih =>
      cases nSigsCount with
      | zero =>
          refine ⟨s.nCheckSigs, ?_⟩
          rw [multiSigLoop, Stacks.slice, List.take_zero, greedy_nil]
          rfl
      | succ nSigsCount =>
          have sigInside : isig - 1 < s.stack.length := by omega
          have keyInside : ikey - 1 < s.stack.length := by omega
          obtain ⟨counted, checked⟩ := @checkCanonicalSig_ok ctx s s.stack[isig - 1] s.stack[ikey - 1] scriptCode
          rw [multiSigLoop, bind_ok (onStacks_ok (stacktop_ok sigInside)),
            bind_ok (onStacks_ok (stacktop_ok keyInside)), bind_ok checked, Stacks.slice_succ positive.1 keyInside,
            Stacks.slice_succ positive.2 sigInside, greedy]
          have keysLength : (s.slice (ikey + 1) nKeysCount).length = nKeysCount := by
            rw [Stacks.slice, List.length_take, List.length_drop]
            omega
          have sigsLength : (s.slice isig (nSigsCount + 1)).length = nSigsCount + 1 := by
            rw [Stacks.slice, List.length_take, List.length_drop]
            omega
          cases accepted : ctx.accepts scriptCode s.stack[isig - 1] s.stack[ikey - 1] with
          | true =>
              obtain ⟨last, rest⟩ := @ih { s with nCheckSigs := counted } nSigsCount (ikey + 1) (isig + 1)
                ⟨Nat.succ_pos _, Nat.succ_pos _⟩ (show ikey + nKeysCount ≤ s.stack.length by omega)
                (show isig + nSigsCount ≤ s.stack.length by omega) (by omega)
              refine ⟨last, ?_⟩
              rw [if_pos rfl]
              exact (congrFun (if_neg (show ¬ nKeysCount < nSigsCount by omega)) _).trans rest
          | false =>
              simp only [if_neg Bool.false_ne_true, ← Stacks.slice_succ positive.2 sigInside]
              by_cases short : nKeysCount < nSigsCount + 1
              · refine ⟨counted, ?_⟩
                rw [greedy_of_length_lt (by omega)]
                exact congrFun (if_pos short) _
              · obtain ⟨last, rest⟩ := @ih { s with nCheckSigs := counted } (nSigsCount + 1) (ikey + 1) isig
                  ⟨Nat.succ_pos _, positive.2⟩ (show ikey + nKeysCount ≤ s.stack.length by omega)
                  (show isig - 1 + (nSigsCount + 1) ≤ s.stack.length by omega) (by omega)
                exact ⟨last, (congrFun (if_neg short) _).trans rest⟩

theorem addOpcodes_ok {count : Nat} (within : s.nOpCount + count ≤ 201) :
    addOpcodes count s = .ok () { s with nOpCount := s.nOpCount + count } := by
  exact (bind_ok rfl).trans ((bind_ok rfl).trans (returnFalseIf_ok (Nat.not_lt.mpr within)))

/-- What is left of the opcode after its loop. -/
theorem pushVerdict_ok (fSuccess : Bool) (s : Stacks) :
    pushVerdict fSuccess false s = .ok () { s with stack := (if fSuccess then vchTrue else vchFalse) :: s.stack } := rfl

theorem pushVerdict_verify (fSuccess : Bool) (s : Stacks) :
    pushVerdict fSuccess true s =
      if fSuccess then .ok () s else .error .returnFalse { s with stack := vchFalse :: s.stack } := by
  cases fSuccess <;> rfl

/-- The opcode up to its verdict, once both counts are read. -/
theorem checkMultiSig_ok (verify : Bool) {nKeysCount nSigsCount : Nat} (fewer : nSigsCount ≤ nKeysCount)
    (deep : 3 + nKeysCount + nSigsCount ≤ s.stack.length) :
    ∃ nCheckSigs, checkMultiSig ctx verify nKeysCount nSigsCount s =
      onStacks (pushVerdict (greedy (ctx.accepts (s.multiSigCode nKeysCount nSigsCount))
          (s.slice (3 + nKeysCount) nSigsCount) (s.slice 2 nKeysCount)) verify)
        { s with
          stack := s.stack.drop (3 + nKeysCount + nSigsCount)
          nCheckSigs := nCheckSigs } := by
  obtain ⟨nCheckSigs, loop⟩ := @multiSigLoop_ok ctx s (s.multiSigCode nKeysCount nSigsCount) nKeysCount nSigsCount
    2 (3 + nKeysCount) ⟨two_pos, by omega⟩ (by omega) (by omega) fewer
  refine ⟨nCheckSigs, ?_⟩
  refine (bind_ok (onStacks_ok (need_ok deep))).trans ((bind_ok rfl).trans ?_)
  refine (bind_ok (onStacks_ok (dropSignatures_ok (by omega)
    (show 3 + nKeysCount - 1 + nSigsCount ≤ s.stack.length by omega)))).trans ?_
  exact (bind_ok loop).trans (bind_ok (onStacks_ok (popMany_ok deep)))

/-- The opcode up to its verdict, from a state that reaches the loop. -/
theorem MultiSigArguments.run {nKeysCount nSigsCount : Nat} (arguments : MultiSigArguments s nKeysCount nSigsCount)
    (verify : Bool) :
    ∃ nCheckSigs, execCheckMultiSig ctx verify s =
      onStacks (pushVerdict (greedy (ctx.accepts (s.multiSigCode nKeysCount nSigsCount))
          (s.slice (3 + nKeysCount) nSigsCount) (s.slice 2 nKeysCount)) verify)
        { s with
          stack := s.stack.drop (3 + nKeysCount + nSigsCount)
          nOpCount := s.nOpCount + nKeysCount
          nCheckSigs := nCheckSigs } := by
  obtain ⟨nCheckSigs, checked⟩ := @checkMultiSig_ok ctx { s with nOpCount := s.nOpCount + nKeysCount } verify
    nKeysCount nSigsCount arguments.sigsRange arguments.deep
  have keysRange := arguments.keysRange
  have sigsRange := arguments.sigsRange
  refine ⟨nCheckSigs, (bind_ok (onStacks_ok arguments.keys)).trans ?_⟩
  rw [countKeys, bind_ok (returnFalseIf_ok (by omega)), Int.toNat_natCast, bind_ok (addOpcodes_ok arguments.opcodes)]
  refine (bind_ok (onStacks_ok (s := { s with nOpCount := s.nOpCount + nKeysCount }) arguments.sigs)).trans ?_
  refine (bind_ok (returnFalseIf_ok (by omega))).trans ?_
  rw [Int.toNat_natCast]
  exact checked

/-- From a state that reaches the loop with its arguments, `OP_CHECKMULTISIG` leaves true on the stack, and
`OP_CHECKMULTISIGVERIFY` goes on, exactly where the signatures can be assigned in order to keys that accept
them. -/
theorem checkMultiSig_complete (ctx : EvalContext) (s : EvalState) (nKeysCount nSigsCount : Nat)
    (arguments : MultiSigArguments s nKeysCount nSigsCount) :
    ∃ fSuccess, (fSuccess = true ↔ Assignable (ctx.accepts (s.multiSigCode nKeysCount nSigsCount))
        (s.slice (3 + nKeysCount) nSigsCount) (s.slice 2 nKeysCount)) ∧
      (s.slice (3 + nKeysCount) nSigsCount).length = nSigsCount ∧ (s.slice 2 nKeysCount).length = nKeysCount ∧
      (∃ after, execCheckMultiSig ctx false s = .ok () after ∧ after.stack =
        (if fSuccess then vchTrue else vchFalse) :: s.stack.drop (3 + nKeysCount + nSigsCount)) ∧
      ((∃ after, execCheckMultiSig ctx true s = .ok () after) ↔ fSuccess = true) := by
  have deep := arguments.deep
  refine ⟨_, greedy_iff, ?_, ?_, ?_, ?_⟩
  · rw [Stacks.slice, List.length_take, List.length_drop]
    omega
  · rw [Stacks.slice, List.length_take, List.length_drop]
    omega
  · obtain ⟨nCheckSigs, run⟩ := @MultiSigArguments.run ctx s nKeysCount nSigsCount arguments false
    exact ⟨_, run.trans (onStacks_ok (pushVerdict_ok _ _)), rfl⟩
  · obtain ⟨nCheckSigs, run⟩ := @MultiSigArguments.run ctx s nKeysCount nSigsCount arguments true
    rw [run, onStacks, pushVerdict_verify]
    split_ifs with success
    · exact iff_of_true ⟨_, rfl⟩ success
    · refine iff_of_false ?_ success
      rintro ⟨after, ended⟩
      cases ended

end Opcode

/-- One signature and two keys; the signature is not canonical. -/
def multiSigSample : EvalState := .start [[2], [3], [4], [1], [9], []] []

theorem multiSigSample_arguments : MultiSigArguments multiSigSample 2 1 where
  keys := rfl
  keysRange := by decide
  opcodes := by decide
  sigs := rfl
  sigsRange := by decide
  deep := by decide

theorem checkMultiSig_complete_sample :
    ∃ after, execCheckMultiSig ⟨sampleCrypto, sampleTx, 0, 0⟩ false multiSigSample = .ok () after ∧
      after.stack = [vchFalse] := by
  obtain ⟨fSuccess, assignable, -, -, ⟨after, ended, stack⟩, -⟩ :=
    checkMultiSig_complete ⟨sampleCrypto, sampleTx, 0, 0⟩ multiSigSample 2 1 multiSigSample_arguments
  refine ⟨after, ended, stack.trans ?_⟩
  have failed : ¬ fSuccess = true := by
    rw [assignable]
    rintro ⟨assigned, -, accepted⟩
    have first := accepted ⟨0, by decide⟩
    rw [EvalContext.accepts, show isCanonicalSignature _ = false from rfl] at first
    cases first
  rw [if_neg failed]
  rfl

end InfiniteRicks
