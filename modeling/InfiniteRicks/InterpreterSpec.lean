import InfiniteRicks.Interpreter
import InfiniteRicks.Library.Hoare

/-!
# The limits of the interpreter

Every opcode tests the depth of the stack before it uses it, so no access leaves a
stack, and the elements stay within `MAX_SCRIPT_ELEMENT_SIZE`. `Deep n` is what an opcode
knows after `need n`; each stack operation says how it changes the depth. From the
opcodes this is carried to one round of the loop and to whole runs.
-/

namespace InfiniteRicks

open Library.Hoare

/-- Every element is within `MAX_SCRIPT_ELEMENT_SIZE`. -/
def Stacks.Fit (s : Stacks) : Prop :=
  (∀ vch ∈ s.stack, vch.length ≤ maxScriptElementSize) ∧ ∀ vch ∈ s.altstack, vch.length ≤ maxScriptElementSize

/-- The stack has `n` elements or more, and everything is within its size. -/
def Deep (n : Nat) (s : Stacks) : Prop := n ≤ s.stack.length ∧ s.Fit

/-- What an opcode can rely on when it is executed. -/
def Ready (s : Stacks) : Prop := Deep 0 s ∧ s.stack.length ≤ 1000

/-- A script is left by a `return` or by `CastToBigNum`, not by an access outside a stack. -/
def Exit.Proper : Exit → Prop
  | .returnFalse => True
  | .overflow => True
  | .outOfRange => False
  | .outOfFuel => False

/-- The program starts with `pre`, ends with `post`, and leaves properly. -/
abbrev Proper {σ α : Type} (pre : σ → Prop) (program : EStateM Exit σ α) (post : α → σ → Prop) : Prop :=
  Triple pre program post fun exit _ => exit.Proper

theorem Deep.mono {n m : Nat} {s : Stacks} (deep : Deep n s) (le : m ≤ n) : Deep m s := ⟨le.trans deep.1, deep.2⟩

/-- At the end of an opcode the depth does not matter. -/
theorem Proper.forget {n : Nat} {pre : Stacks → Prop} {program : StackM Unit}
    (triple : Proper pre program fun _ => Deep n) : Proper pre program fun _ => Deep 0 :=
  triple.conseq fun _ _ deep => deep.mono (Nat.zero_le n)

theorem returnFalseIf_proper {σ : Type} {pre : σ → Prop} {condition : Prop} [Decidable condition] :
    Proper pre (returnFalseIf condition) fun _ s => pre s ∧ ¬ condition :=
  .ite (fun _ => .throw fun _ _ => trivial) fun fails => .pure fun _ start => ⟨start, fails⟩

theorem need_proper {n : Nat} (m : Nat) : Proper (Deep n) (need m) fun _ => Deep m := by
  refine Triple.get.bind fun before => ?_
  refine returnFalseIf_proper.conseq ?_
  rintro - s ⟨⟨deep, rfl⟩, enough⟩
  exact ⟨Nat.le_of_not_lt enough, deep.2⟩

theorem stacktop_proper {n i : Nat} (positive : 0 < i) (le : i ≤ n) :
    Proper (Deep n) (stacktop i) fun vch s => Deep n s ∧ vch.length ≤ maxScriptElementSize := by
  refine Triple.get.bind fun before => ?_
  rintro s ⟨⟨deep, fit⟩, rfl⟩
  have inside : i - 1 < before.stack.length := by omega
  rw [List.getElem?_eq_getElem inside]
  exact ⟨⟨deep, fit⟩, fit.1 _ (List.getElem_mem inside)⟩

theorem popstack_proper {n : Nat} : Proper (Deep (n + 1)) popstack fun _ => Deep n := by
  rintro ⟨stack, altstack⟩ ⟨deep, fit⟩
  cases stack with
  | nil => exact absurd deep (Nat.not_succ_le_zero n)
  | cons top rest =>
      exact ⟨Nat.le_of_succ_le_succ deep, fun vch member => fit.1 vch (List.mem_cons_of_mem top member), fit.2⟩

theorem push_proper {n : Nat} {vch : Bytes} (small : vch.length ≤ maxScriptElementSize) :
    Proper (Deep n) (push vch) fun _ => Deep (n + 1) := by
  refine .modify ?_
  rintro s ⟨deep, fit⟩
  exact ⟨Nat.succ_le_succ deep, List.forall_mem_cons.mpr ⟨small, fit.1⟩, fit.2⟩

theorem eraseAt_proper {n i : Nat} (positive : 0 < i) (le : i ≤ n + 1) :
    Proper (Deep (n + 1)) (eraseAt i) fun _ => Deep n := by
  refine Triple.get.bind fun before => .ite (fun short => ?_) fun _ => .modify ?_
  · rintro s ⟨deep, rfl⟩
    exact absurd deep.1 (by omega)
  · rintro s ⟨⟨deep, fit⟩, rfl⟩
    refine ⟨?_, fun vch member => fit.1 vch (List.mem_of_mem_eraseIdx member), fit.2⟩
    rw [List.length_eraseIdx]
    split <;> omega

theorem insertAt_proper {n i : Nat} {vch : Bytes} (small : vch.length ≤ maxScriptElementSize) (le : i ≤ n) :
    Proper (Deep n) (insertAt i vch) fun _ => Deep (n + 1) := by
  refine Triple.get.bind fun before => .ite (fun short => ?_) fun _ => .modify ?_
  · rintro s ⟨deep, rfl⟩
    exact absurd deep.1 (by omega)
  · rintro s ⟨⟨deep, fit⟩, rfl⟩
    refine ⟨?_, ?_, fit.2⟩
    · simp only [List.length_append, List.length_take, List.length_cons, List.length_drop]
      omega
    · intro element member
      rcases List.mem_append.mp member with front | behind
      · exact fit.1 element (List.mem_of_mem_take front)
      · rcases List.mem_cons.mp behind with rfl | below
        · exact small
        · exact fit.1 element (List.mem_of_mem_drop below)

theorem swapAt_proper {n i j : Nat} (positive : 0 < i ∧ 0 < j) (le : i ≤ n ∧ j ≤ n) :
    Proper (Deep n) (swapAt i j) fun _ => Deep n := by
  refine (stacktop_proper positive.1 le.1).bindFact fun vch1 small1 => ?_
  refine (stacktop_proper positive.2 le.2).bindFact fun vch2 small2 => .modify ?_
  rintro s ⟨deep, fit⟩
  refine ⟨by simpa using deep, fun vch member => ?_, fit.2⟩
  rcases List.mem_or_eq_of_mem_set member with member | rfl
  · rcases List.mem_or_eq_of_mem_set member with member | rfl
    · exact fit.1 vch member
    · exact small2
  · exact small1

theorem verdict_small (fSuccess : Bool) : (if fSuccess then vchTrue else vchFalse).length ≤ maxScriptElementSize := by
  cases fSuccess <;> decide

theorem pushVerdict_proper {n : Nat} (fSuccess verify : Bool) :
    Proper (Deep n) (pushVerdict fSuccess verify) fun _ => Deep 0 := by
  refine (push_proper (verdict_small fSuccess)).bind fun _ => .ite (fun _ => ?_) fun _ => ?_
  · exact .ite (fun _ => Proper.forget popstack_proper) fun _ => .throw fun _ _ => trivial
  · exact .pure fun _ deep => deep.mono (Nat.zero_le _)

/-- The numbers that the opcodes compute with. -/
def SmallNum (bn : Int) : Prop := bn.natAbs ≤ 256 ^ 5

theorem getvch_small {bn : Int} (bound : bn.natAbs ≤ 256 ^ 6) : (CBigNum.getvch bn).length ≤ maxScriptElementSize := by
  have size : CBigNum.mpiSize (256 ^ 6) ≤ maxScriptElementSize := by decide +kernel
  rw [CBigNum.getvch_length]
  exact (CBigNum.mpiSize_mono bound).trans size

theorem castToBigNum_proper {pre : Stacks → Prop} (vch : Bytes) :
    Proper pre (castToBigNum vch) fun bn s => pre s ∧ SmallNum bn := by
  refine .ite (fun _ => .throw fun _ _ => trivial) fun short => .pure fun s start => ⟨start, ?_⟩
  have four : (CBigNum.setvch vch).natAbs ≤ 256 ^ 4 :=
    (CBigNum.natAbs_setvch_lt vch).le.trans (Nat.pow_le_pow_right (by omega) (by omega))
  have five : (CBigNum.getvch (CBigNum.setvch vch)).length ≤ 5 := by
    have size : CBigNum.mpiSize (256 ^ 4) = 5 := by decide +kernel
    rw [CBigNum.getvch_length, ← size]
    exact CBigNum.mpiSize_mono four
  exact (CBigNum.natAbs_setvch_lt _).le.trans (Nat.pow_le_pow_right (by omega) five)

theorem numericOp1_small (op : NumericOp1) {bn : Int} (small : SmallNum bn) : (op.apply bn).natAbs ≤ 256 ^ 6 := by
  unfold SmallNum at small
  cases op <;> simp only [NumericOp1.apply] <;> (try split) <;> omega

theorem numericOp2_small (op : NumericOp2) {bn1 bn2 : Int} (small1 : SmallNum bn1) (small2 : SmallNum bn2) :
    (op.apply bn1 bn2).natAbs ≤ 256 ^ 6 := by
  unfold SmallNum at small1 small2
  cases op <;> simp only [NumericOp2.apply] <;> (try split) <;> omega

theorem hashOp_small (crypto : Crypto) (op : HashOp) (vch : Bytes) :
    (op.apply crypto vch).length ≤ maxScriptElementSize := by
  cases op <;> simp [HashOp.apply, maxScriptElementSize]

namespace StackOp

theorem execVerify_proper : Proper (Deep 0) execVerify fun _ => Deep 0 := by
  refine (need_proper 1).bind fun _ => (stacktop_proper one_pos le_rfl).bindFact fun vch _ => ?_
  exact .ite (fun _ => Proper.forget popstack_proper) fun _ => .throw fun _ _ => trivial

theorem execToAltStack_proper : Proper (Deep 0) execToAltStack fun _ => Deep 0 := by
  refine (need_proper 1).bind fun _ => (stacktop_proper one_pos le_rfl).bindFact fun vch small => ?_
  have moved : ∀ s : Stacks, Deep 1 s → Deep 1 { s with altstack := vch :: s.altstack } :=
    fun s deep => ⟨deep.1, deep.2.1, List.forall_mem_cons.mpr ⟨small, deep.2.2⟩⟩
  exact (Triple.modify moved).bind fun _ => popstack_proper

theorem execFromAltStack_proper : Proper (Deep 0) execFromAltStack fun _ => Deep 0 := by
  rintro ⟨stack, altstack⟩ ⟨-, fit⟩
  cases altstack with
  | nil => trivial
  | cons top rest =>
      obtain ⟨small, others⟩ := List.forall_mem_cons.mp fit.2
      exact ⟨Nat.zero_le _, List.forall_mem_cons.mpr ⟨small, fit.1⟩, others⟩

theorem exec2Drop_proper : Proper (Deep 0) exec2Drop fun _ => Deep 0 := by
  exact (need_proper 2).bind fun _ => popstack_proper.bind fun _ => popstack_proper

theorem exec2Dup_proper : Proper (Deep 0) exec2Dup fun _ => Deep 0 := by
  refine (need_proper 2).bind fun _ => (stacktop_proper two_pos le_rfl).bindFact fun vch1 small1 => ?_
  refine (stacktop_proper one_pos one_le_two).bindFact fun vch2 small2 => ?_
  exact (push_proper small1).bind fun _ => (push_proper small2).forget

theorem exec3Dup_proper : Proper (Deep 0) exec3Dup fun _ => Deep 0 := by
  refine (need_proper 3).bind fun _ => (stacktop_proper three_pos le_rfl).bindFact fun vch1 small1 => ?_
  refine (stacktop_proper two_pos (by decide)).bindFact fun vch2 small2 => ?_
  refine (stacktop_proper one_pos (by decide)).bindFact fun vch3 small3 => ?_
  exact (push_proper small1).bind fun _ => (push_proper small2).bind fun _ => (push_proper small3).forget

theorem exec2Over_proper : Proper (Deep 0) exec2Over fun _ => Deep 0 := by
  refine (need_proper 4).bind fun _ => (stacktop_proper four_pos le_rfl).bindFact fun vch1 small1 => ?_
  refine (stacktop_proper three_pos (by decide)).bindFact fun vch2 small2 => ?_
  exact (push_proper small1).bind fun _ => (push_proper small2).forget

theorem exec2Rot_proper : Proper (Deep 0) exec2Rot fun _ => Deep 0 := by
  refine (need_proper 6).bind fun _ => (stacktop_proper (by decide) le_rfl).bindFact fun vch1 small1 => ?_
  refine (stacktop_proper (by decide) (by decide)).bindFact fun vch2 small2 => ?_
  refine (eraseAt_proper (by decide) (by decide)).bind fun _ => ?_
  refine (eraseAt_proper (by decide) (by decide)).bind fun _ => ?_
  exact (push_proper small1).bind fun _ => (push_proper small2).forget

theorem exec2Swap_proper : Proper (Deep 0) exec2Swap fun _ => Deep 0 := by
  refine (need_proper 4).bind fun _ => (swapAt_proper (by decide) (by decide)).bind fun _ => ?_
  exact (swapAt_proper (by decide) (by decide)).forget

theorem execIfDup_proper : Proper (Deep 0) execIfDup fun _ => Deep 0 := by
  refine (need_proper 1).bind fun _ => (stacktop_proper one_pos le_rfl).bindFact fun vch small => ?_
  exact .ite (fun _ => (push_proper small).forget) fun _ => .pure fun _ deep => deep.mono (Nat.zero_le 1)

theorem execDepth_proper : Proper Ready execDepth fun _ => Deep 0 := by
  refine Triple.get.bind fun before => ?_
  rintro s ⟨⟨deep, bound⟩, rfl⟩
  have small : (CBigNum.getvch before.stack.length).length ≤ maxScriptElementSize :=
    getvch_small (by rw [Int.natAbs_natCast]; omega)
  exact (push_proper small).forget before deep

theorem execDrop_proper : Proper (Deep 0) execDrop fun _ => Deep 0 := by
  exact (need_proper 1).bind fun _ => popstack_proper

theorem execDup_proper : Proper (Deep 0) execDup fun _ => Deep 0 := by
  refine (need_proper 1).bind fun _ => (stacktop_proper one_pos le_rfl).bindFact fun vch small => ?_
  exact (push_proper small).forget

theorem execNip_proper : Proper (Deep 0) execNip fun _ => Deep 0 := by
  exact (need_proper 2).bind fun _ => (eraseAt_proper two_pos le_rfl).forget

theorem execOver_proper : Proper (Deep 0) execOver fun _ => Deep 0 := by
  refine (need_proper 2).bind fun _ => (stacktop_proper two_pos le_rfl).bindFact fun vch small => ?_
  exact (push_proper small).forget

theorem pickFrom_proper (roll : Bool) {n i : Nat} (positive : 0 < i) (le : i ≤ n) :
    Proper (Deep n) (pickFrom roll i) fun _ => Deep 0 := by
  obtain ⟨m, rfl⟩ : ∃ m, n = m + 1 := ⟨n - 1, by omega⟩
  refine (stacktop_proper positive le).bindFact fun vch small => .ite (fun _ => ?_) fun _ => ?_
  · exact (eraseAt_proper positive le).bind fun _ => (push_proper small).forget
  · exact (push_proper small).forget

theorem execPick_proper (roll : Bool) : Proper (Deep 0) (execPick roll) fun _ => Deep 0 := by
  refine (need_proper 2).bind fun _ => (stacktop_proper one_pos one_le_two).bindFact fun vch _ => ?_
  refine (castToBigNum_proper vch).bindFact fun bn _ => popstack_proper.bind fun _ => Triple.get.bind fun before => ?_
  refine returnFalseIf_proper.bind fun _ => ?_
  -- The test bounds the index by the depth of the stack itself.
  rintro s ⟨⟨⟨deep, fit⟩, rfl⟩, inside⟩
  have below : (CBigNum.getint bn).toNat + 1 ≤ before.stack.length := by omega
  exact pickFrom_proper roll (Nat.succ_pos _) below before ⟨le_rfl, fit⟩

theorem execRot_proper : Proper (Deep 0) execRot fun _ => Deep 0 := by
  refine (need_proper 3).bind fun _ => (swapAt_proper (by decide) (by decide)).bind fun _ => ?_
  exact (swapAt_proper (by decide) (by decide)).forget

theorem execSwap_proper : Proper (Deep 0) execSwap fun _ => Deep 0 := by
  exact (need_proper 2).bind fun _ => (swapAt_proper (by decide) (by decide)).forget

theorem execTuck_proper : Proper (Deep 0) execTuck fun _ => Deep 0 := by
  refine (need_proper 2).bind fun _ => (stacktop_proper one_pos one_le_two).bindFact fun vch small => ?_
  exact (insertAt_proper small le_rfl).forget

theorem execSize_proper : Proper (Deep 0) execSize fun _ => Deep 0 := by
  refine (need_proper 1).bind fun _ => (stacktop_proper one_pos le_rfl).bindFact fun vch small => ?_
  have numeral : (CBigNum.getvch vch.length).length ≤ maxScriptElementSize := by
    unfold maxScriptElementSize at small
    exact getvch_small (by rw [Int.natAbs_natCast]; omega)
  exact (push_proper numeral).forget

theorem execEqual_proper (verify : Bool) : Proper (Deep 0) (execEqual verify) fun _ => Deep 0 := by
  refine (need_proper 2).bind fun _ => (stacktop_proper two_pos le_rfl).bindFact fun vch1 _ => ?_
  refine (stacktop_proper one_pos one_le_two).bindFact fun vch2 _ => ?_
  exact popstack_proper.bind fun _ => popstack_proper.bind fun _ => pushVerdict_proper _ verify

theorem execNumeric1_proper (op : NumericOp1) : Proper (Deep 0) (execNumeric1 op) fun _ => Deep 0 := by
  refine (need_proper 1).bind fun _ => (stacktop_proper one_pos le_rfl).bindFact fun vch _ => ?_
  refine (castToBigNum_proper vch).bindFact fun bn small => popstack_proper.bind fun _ => ?_
  exact (push_proper (getvch_small (numericOp1_small op small))).forget

theorem execNumeric2_proper (op : NumericOp2) : Proper (Deep 0) (execNumeric2 op) fun _ => Deep 0 := by
  refine (need_proper 2).bind fun _ => (stacktop_proper two_pos le_rfl).bindFact fun vch1 _ => ?_
  refine (castToBigNum_proper vch1).bindFact fun bn1 small1 => ?_
  refine (stacktop_proper one_pos one_le_two).bindFact fun vch2 _ => ?_
  refine (castToBigNum_proper vch2).bindFact fun bn2 small2 => ?_
  refine popstack_proper.bind fun _ => popstack_proper.bind fun _ => ?_
  refine (push_proper (getvch_small (numericOp2_small op small1 small2))).bind fun _ => .ite (fun _ => ?_) fun _ => ?_
  · refine (stacktop_proper one_pos le_rfl).bindFact fun vch _ => ?_
    exact .ite (fun _ => popstack_proper) fun _ => .throw fun _ _ => trivial
  · exact .pure fun _ deep => deep.mono (Nat.zero_le 1)

theorem execWithin_proper : Proper (Deep 0) execWithin fun _ => Deep 0 := by
  refine (need_proper 3).bind fun _ => (stacktop_proper three_pos le_rfl).bindFact fun vch1 _ => ?_
  refine (castToBigNum_proper vch1).bindFact fun bn1 _ => ?_
  refine (stacktop_proper two_pos (by decide)).bindFact fun vch2 _ => ?_
  refine (castToBigNum_proper vch2).bindFact fun bn2 _ => ?_
  refine (stacktop_proper one_pos (by decide)).bindFact fun vch3 _ => ?_
  refine (castToBigNum_proper vch3).bindFact fun bn3 _ => ?_
  refine popstack_proper.bind fun _ => popstack_proper.bind fun _ => popstack_proper.bind fun _ => ?_
  have small : (if bn2 ≤ bn1 ∧ bn1 < bn3 then vchTrue else vchFalse).length ≤ maxScriptElementSize := by
    split <;> decide
  exact (push_proper small).forget

theorem execHash_proper (crypto : Crypto) (op : HashOp) : Proper (Deep 0) (execHash crypto op) fun _ => Deep 0 := by
  refine (need_proper 1).bind fun _ => (stacktop_proper one_pos le_rfl).bindFact fun vch _ => ?_
  exact popstack_proper.bind fun _ => (push_proper (hashOp_small crypto op vch)).forget

/-- Every opcode that works on the stacks stays inside them and keeps the sizes. -/
theorem exec_proper (crypto : Crypto) (op : StackOp) :
    Proper Ready (op.exec crypto) fun _ => Deep 0 := by
  have weaken : ∀ {program : StackM Unit}, Proper (Deep 0) program (fun _ => Deep 0) →
      Proper Ready program fun _ => Deep 0 :=
    fun triple s start => triple s start.1
  cases op with
  | opVerify => exact weaken execVerify_proper
  | opReturn => exact .throw fun _ _ => trivial
  | opToAltStack => exact weaken execToAltStack_proper
  | opFromAltStack => exact weaken execFromAltStack_proper
  | op2Drop => exact weaken exec2Drop_proper
  | op2Dup => exact weaken exec2Dup_proper
  | op3Dup => exact weaken exec3Dup_proper
  | op2Over => exact weaken exec2Over_proper
  | op2Rot => exact weaken exec2Rot_proper
  | op2Swap => exact weaken exec2Swap_proper
  | opIfDup => exact weaken execIfDup_proper
  | opDepth => exact execDepth_proper
  | opDrop => exact weaken execDrop_proper
  | opDup => exact weaken execDup_proper
  | opNip => exact weaken execNip_proper
  | opOver => exact weaken execOver_proper
  | opPick => exact weaken (execPick_proper false)
  | opRoll => exact weaken (execPick_proper true)
  | opRot => exact weaken execRot_proper
  | opSwap => exact weaken execSwap_proper
  | opTuck => exact weaken execTuck_proper
  | opSize => exact weaken execSize_proper
  | opEqual => exact weaken (execEqual_proper false)
  | opEqualVerify => exact weaken (execEqual_proper true)
  | numeric1 op => exact weaken (execNumeric1_proper op)
  | numeric2 op => exact weaken (execNumeric2_proper op)
  | opWithin => exact weaken execWithin_proper
  | hash op => exact weaken (execHash_proper crypto op)

end StackOp

/-- What holds of the stacks, for the variables of `EvalScript`, with the limit on the opcodes. -/
def Within (holds : Stacks → Prop) (s : EvalState) : Prop := holds s.toStacks ∧ s.nOpCount ≤ 201

section Evaluator

variable {α : Type} {n : Nat}

/-- Stack code in `EvalScript`: what it does to the stacks, and that it leaves the other variables. -/
theorem onStacks_triple {pre : Stacks → Prop} {program : StackM α} {post : α → Stacks → Prop}
    {exits : Exit → Stacks → Prop} {frame : EvalState → Prop}
    (framed : ∀ s after, frame s → frame { s with toStacks := after }) (triple : Triple pre program post exits) :
    Triple (fun s => pre s.toStacks ∧ frame s) (onStacks program) (fun value s => post value s.toStacks ∧ frame s)
      fun exit s => exits exit s.toStacks ∧ frame s := by
  rintro s ⟨start, other⟩
  have result := triple s.toStacks start
  unfold onStacks
  cases run : program s.toStacks with
  | ok value after =>
      rw [run] at result
      exact ⟨result, framed s after other⟩
  | error exit after =>
      rw [run] at result
      exact ⟨result, framed s after other⟩

theorem opcodes_framed (s : EvalState) (after : Stacks) (bound : s.nOpCount ≤ 201) :
    { s with toStacks := after }.nOpCount ≤ 201 := bound

/-- A stack operation that tells something of its value. -/
theorem onStacks_fact {pre post : Stacks → Prop} {program : StackM α} {fact : α → Prop}
    (triple : Proper pre program fun value s => post s ∧ fact value) :
    Proper (Within pre) (onStacks program) fun value s => Within post s ∧ fact value := by
  refine (onStacks_triple opcodes_framed triple).weaken (fun _ start => start) ?_ fun _ _ exit => exit.1
  rintro value s ⟨⟨holds, fact⟩, bound⟩
  exact ⟨⟨holds, bound⟩, fact⟩

theorem onStacks_proper {pre post : Stacks → Prop} {program : StackM α} (triple : Proper pre program fun _ => post) :
    Proper (Within pre) (onStacks program) fun _ => Within post :=
  (onStacks_triple opcodes_framed triple).weaken (fun _ start => start) (fun _ _ final => final)
    fun _ _ exit => exit.1

theorem checkCanonicalSig_proper (ctx : EvalContext) (vchSig vchPubKey : Bytes) (scriptCode : CScript) :
    Proper (Within (Deep n)) (checkCanonicalSig ctx vchSig vchPubKey scriptCode) fun _ => Within (Deep n) := by
  refine .ite (fun _ => ?_) fun _ => .pure fun _ deep => deep
  have counted : ∀ s : EvalState, Within (Deep n) s →
      Within (Deep n) { s with nCheckSigs := s.nCheckSigs + 1 } := fun _ deep => deep
  exact (Triple.modify counted).bind fun _ => .pure fun _ deep => deep

theorem execCheckSig_proper (ctx : EvalContext) (verify : Bool) :
    Proper (Within (Deep 0)) (execCheckSig ctx verify) fun _ => Within (Deep 0) := by
  refine (onStacks_proper (need_proper 2)).bind fun _ => ?_
  refine (onStacks_fact (stacktop_proper two_pos le_rfl)).bindFact fun vchSig _ => ?_
  refine (onStacks_fact (stacktop_proper one_pos one_le_two)).bindFact fun vchPubKey _ => ?_
  refine .bindGet fun before => (checkCanonicalSig_proper ctx vchSig vchPubKey _).bind fun fSuccess => ?_
  refine (onStacks_proper popstack_proper).bind fun _ => (onStacks_proper popstack_proper).bind fun _ => ?_
  exact onStacks_proper (pushVerdict_proper fSuccess verify)

theorem dropSignatures_proper {isig : Nat} (count : Nat) (scriptCode : CScript) (positive : 0 < isig)
    (le : isig + count ≤ n + 1) : Proper (Deep n) (dropSignatures isig count scriptCode) fun _ => Deep n := by
  induction count generalizing isig scriptCode with
  | zero => exact .pure fun _ deep => deep
  | succ count ih =>
      refine (stacktop_proper positive (by omega)).bindFact fun vchSig _ => ?_
      exact ih _ (Nat.succ_pos isig) (by omega)

/-- Neither the keys nor the signatures run out under the loop. -/
theorem multiSigLoop_proper (ctx : EvalContext) (scriptCode : CScript) {nKeysCount nSigsCount ikey isig : Nat}
    (positive : 0 < ikey ∧ 0 < isig) (keys : ikey + nKeysCount ≤ n + 1) (sigs : isig + nSigsCount ≤ n + 1)
    (fewer : nSigsCount ≤ nKeysCount) :
    Proper (Within (Deep n)) (multiSigLoop ctx scriptCode nKeysCount nSigsCount ikey isig)
      fun _ => Within (Deep n) := by
  induction nKeysCount generalizing nSigsCount ikey isig with
  | zero =>
      obtain rfl : nSigsCount = 0 := by omega
      exact .pure fun _ deep => deep
  | succ nKeysCount ih =>
      cases nSigsCount with
      | zero => exact .pure fun _ deep => deep
      | succ nSigsCount =>
          refine (onStacks_fact (stacktop_proper positive.2 (by omega))).bindFact fun vchSig _ => ?_
          refine (onStacks_fact (stacktop_proper positive.1 (by omega))).bindFact fun vchPubKey _ => ?_
          refine (checkCanonicalSig_proper ctx vchSig vchPubKey scriptCode).bind fun fOk => ?_
          cases fOk with
          | false =>
              refine .ite (fun _ => .pure fun _ deep => deep) fun enough => ?_
              exact ih ⟨Nat.succ_pos _, positive.2⟩ (by omega) (by omega) (Nat.le_of_not_lt enough)
          | true =>
              refine .ite (fun _ => .pure fun _ deep => deep) fun enough => ?_
              exact ih ⟨Nat.succ_pos _, Nat.succ_pos _⟩ (by omega) (by omega) (Nat.le_of_not_lt enough)

theorem popMany_proper (count : Nat) : Proper (Deep (n + count)) (popMany count) fun _ => Deep n := by
  induction count with
  | zero => exact .pure fun _ deep => deep
  | succ count ih => exact popstack_proper.bind fun _ => ih

theorem readCount_proper {i : Nat} (positive : 0 < i) : Proper (Deep n) (readCount i) fun _ => Deep i := by
  refine (need_proper i).bind fun _ => (stacktop_proper positive le_rfl).bindFact fun vch _ => ?_
  exact (castToBigNum_proper vch).bindFact fun bn _ => .pure fun _ deep => deep

theorem checkMultiSig_proper (ctx : EvalContext) (verify : Bool) {nKeysCount nSigsCount : Nat}
    (fewer : nSigsCount ≤ nKeysCount) :
    Proper (Within (Deep n)) (checkMultiSig ctx verify nKeysCount nSigsCount) fun _ => Within (Deep 0) := by
  refine (onStacks_proper (need_proper (3 + nKeysCount + nSigsCount))).bind fun _ => .bindGet fun before => ?_
  refine (onStacks_proper (dropSignatures_proper nSigsCount _ (by omega) (by omega))).bind fun scriptCode => ?_
  refine (multiSigLoop_proper ctx scriptCode (by omega) (by omega) (by omega) fewer).bind fun fSuccess => ?_
  have popped : Proper (Deep (3 + nKeysCount + nSigsCount)) (popMany (3 + nKeysCount + nSigsCount))
      fun _ => Deep 0 := by
    simpa only [Nat.zero_add] using @popMany_proper 0 (3 + nKeysCount + nSigsCount)
  exact (onStacks_proper popped).bind fun _ => onStacks_proper (pushVerdict_proper fSuccess verify)

theorem addOpcodes_proper {pre : Stacks → Prop} (count : Nat) :
    Proper (Within pre) (addOpcodes count) fun _ => Within pre := by
  have counted : Proper (Within pre) (modify fun s => { s with nOpCount := s.nOpCount + count })
      fun _ s => pre s.toStacks := .modify fun _ start => start.1
  refine counted.bind fun _ => Triple.get.bind fun before => returnFalseIf_proper.conseq ?_
  rintro - s ⟨⟨holds, rfl⟩, bound⟩
  exact ⟨holds, Nat.le_of_not_lt bound⟩

theorem countKeys_proper (ctx : EvalContext) (verify : Bool) (nKeysCount : Int) :
    Proper (Within (Deep n)) (countKeys ctx verify nKeysCount) fun _ => Within (Deep 0) := by
  refine returnFalseIf_proper.bindFact fun _ range => ?_
  refine (addOpcodes_proper nKeysCount.toNat).bind fun _ => ?_
  refine (onStacks_proper (readCount_proper (by omega))).bind fun nSigsCount => ?_
  refine returnFalseIf_proper.bindFact fun _ sigs => checkMultiSig_proper ctx verify ?_
  omega

theorem execCheckMultiSig_proper (ctx : EvalContext) (verify : Bool) :
    Proper (Within (Deep 0)) (execCheckMultiSig ctx verify) fun _ => Within (Deep 0) :=
  (onStacks_proper (readCount_proper one_pos)).bind fun nKeysCount => countKeys_proper ctx verify nKeysCount

theorem popCondition_proper (notIf : Bool) : Proper (Deep n) (popCondition notIf) fun _ => Deep 0 := by
  refine (need_proper 1).bind fun _ => (stacktop_proper one_pos le_rfl).bindFact fun vch _ => ?_
  exact popstack_proper.bind fun _ => .pure fun _ deep => deep

theorem execIf_proper (fExec notIf : Bool) :
    Proper (Within (Deep 0)) (execIf fExec notIf) fun _ => Within (Deep 0) := by
  have opened : ∀ (fValue : Bool) (s : EvalState), Within (Deep 0) s →
      Within (Deep 0) { s with vfExec := fValue :: s.vfExec } := fun _ _ deep => deep
  cases fExec with
  | true => exact (onStacks_proper (popCondition_proper notIf)).bind fun fValue => .modify (opened fValue)
  | false => exact .modify (opened false)

theorem execElse_proper : Proper (Within (Deep 0)) execElse fun _ => Within (Deep 0) := by
  rintro ⟨both, vfExec, nOpCount, pbegincodehash, nCheckSigs⟩ deep
  cases vfExec with
  | nil => trivial
  | cons back rest => exact deep

theorem execEndIf_proper : Proper (Within (Deep 0)) execEndIf fun _ => Within (Deep 0) := by
  rintro ⟨both, vfExec, nOpCount, pbegincodehash, nCheckSigs⟩ deep
  cases vfExec with
  | nil => trivial
  | cons back rest => exact deep

/-- What is true of the 256 bytes is true of every opcode. -/
theorem forall_opcode {property : UInt8 → Prop} (all : ∀ n < 256, property (UInt8.ofNat n)) (opcode : UInt8) :
    property opcode := by
  simpa only [UInt8.ofNat_toNat] using all opcode.toNat opcode.toNat_lt

/-- The numbers that have opcodes of their own. -/
theorem natAbs_of_opN : ∀ (opcode : UInt8) (n : Int), Opcode.ofByte opcode = some (.opN n) → n.natAbs ≤ 16 := by
  refine forall_opcode ?_
  have all : ∀ n < 256, ∀ op ∈ Opcode.ofByte (UInt8.ofNat n),
      (match op with | .opN n => decide (n.natAbs ≤ 16) | _ => true) = true := by decide +kernel
  intro n below number found
  exact of_decide_eq_true (all n below (.opN number) found)

/-- The limits between two opcodes. -/
structure EvalState.Limits (s : EvalState) : Prop where
  sizes : s.stack.length + s.altstack.length ≤ 1000
  elements : s.toStacks.Fit
  opcodes : s.nOpCount ≤ 201

theorem execOpcode_proper (ctx : EvalContext) (fExec : Bool) (pc : CScript) (opcode : UInt8) :
    Proper (Within Ready) (execOpcode ctx fExec pc (Opcode.ofByte opcode)) fun _ => Within (Deep 0) := by
  have weaken : ∀ {program : EvalM Unit}, Proper (Within (Deep 0)) program (fun _ => Within (Deep 0)) →
      Proper (Within Ready) program fun _ => Within (Deep 0) := fun triple s start => triple s ⟨start.1.1, start.2⟩
  cases meaning : Opcode.ofByte opcode with
  | none => exact .throw fun _ _ => trivial
  | some op =>
      cases op with
      | opN n =>
          have bound := natAbs_of_opN opcode n meaning
          exact weaken (onStacks_proper (push_proper (getvch_small (by omega))).forget)
      | opNop => exact weaken (.pure fun _ deep => deep)
      | opIf => exact weaken (execIf_proper fExec false)
      | opNotIf => exact weaken (execIf_proper fExec true)
      | opElse => exact weaken execElse_proper
      | opEndIf => exact weaken execEndIf_proper
      | stack op => exact onStacks_proper (op.exec_proper ctx.crypto)
      | opCodeSeparator => exact weaken (.modify fun _ deep => deep)
      | opCheckSig => exact weaken (execCheckSig_proper ctx false)
      | opCheckSigVerify => exact weaken (execCheckSig_proper ctx true)
      | opCheckMultiSig => exact weaken (execCheckMultiSig_proper ctx false)
      | opCheckMultiSigVerify => exact weaken (execCheckMultiSig_proper ctx true)

theorem dispatch_proper (ctx : EvalContext) (opcode : UInt8) {vchPushValue : Bytes} (pc : CScript)
    (small : vchPushValue.length ≤ maxScriptElementSize) :
    Proper (Within Ready) (dispatch ctx opcode vchPushValue pc) fun _ => Within (Deep 0) := by
  refine .bindGet fun before => .ite (fun _ => ?_) fun _ => .ite (fun _ => ?_) fun _ => ?_
  · exact fun s ready => onStacks_proper (push_proper small).forget s ⟨ready.1.1, ready.2⟩
  · exact execOpcode_proper ctx _ pc opcode
  · exact .pure fun _ ready => ⟨ready.1.1, ready.2⟩

theorem countOpcode_proper {pre : Stacks → Prop} (opcode : UInt8) :
    Proper (Within pre) (countOpcode opcode) fun _ => Within pre :=
  .ite (fun _ => addOpcodes_proper 1) fun _ => .pure fun _ start => start

/-- One round of the loop keeps the limits. -/
theorem evalStep_proper (ctx : EvalContext) (opcode : UInt8) (vchPushValue : Bytes) (pc : CScript) :
    Proper EvalState.Limits (evalStep ctx opcode vchPushValue pc) fun _ => EvalState.Limits := by
  have start : ∀ s : EvalState, s.Limits → Within Ready s := fun s limits =>
    ⟨⟨⟨Nat.zero_le _, limits.elements⟩, (Nat.le_add_right _ _).trans limits.sizes⟩, limits.opcodes⟩
  refine Triple.weaken ?_ start (fun _ _ final => final) fun _ _ exit => exit
  refine returnFalseIf_proper.bindFact fun _ small => ?_
  refine (countOpcode_proper opcode).bind fun _ => returnFalseIf_proper.bindFact fun _ _ => ?_
  refine (dispatch_proper ctx opcode pc (Nat.le_of_not_lt small)).bind fun _ => Triple.get.bind fun before => ?_
  refine returnFalseIf_proper.conseq ?_
  rintro - s ⟨⟨⟨⟨-, elements⟩, opcodes⟩, rfl⟩, sizes⟩
  exact ⟨Nat.le_of_not_lt sizes, elements, opcodes⟩

/-- The loop keeps the limits, and its fuel is enough. -/
theorem evalLoop_proper (ctx : EvalContext) {fuel : Nat} {pc : CScript} (enough : pc.length ≤ fuel) :
    Proper EvalState.Limits (evalLoop ctx fuel pc) fun _ => EvalState.Limits := by
  induction fuel generalizing pc with
  | zero =>
      obtain rfl : pc = [] := List.length_eq_zero_iff.mp (Nat.le_zero.mp enough)
      exact .pure fun _ limits => limits
  | succ fuel ih =>
      cases pc with
      | nil => exact .pure fun _ limits => limits
      | cons first rest =>
          unfold evalLoop
          cases instruction : CScript.getOp (first :: rest) with
          | none => exact .throw fun _ _ => trivial
          | some read =>
              obtain ⟨opcode, vchPushValue, next⟩ := read
              have shorter := CScript.length_of_getOp instruction
              exact (evalStep_proper ctx opcode vchPushValue next).bind fun _ => ih (by omega)

/-! ## What a round of the loop counts -/

/-- The opcodes counted so far, and the most calls of `CheckSig`. -/
def Spent (o c : Nat) (s : EvalState) : Prop := s.nOpCount = o ∧ s.nCheckSigs ≤ c

variable {o c limit : Nat}

/-- The program ends with this much spent, and stays within a limit on the checks where it leaves. -/
abbrev CountsTo (pre : EvalState → Prop) (program : EvalM α) (o c limit : Nat) : Prop :=
  Triple pre program (fun _ => Spent o c) fun _ s => s.nCheckSigs ≤ limit

theorem pure_spends (value : α) : CountsTo (Spent o c) (pure value) o c limit := .pure fun _ spent => spent

theorem returnFalseIf_spends (condition : Prop) [Decidable condition] (le : c ≤ limit) :
    Triple (Spent o c) (returnFalseIf condition) (fun _ s => Spent o c s ∧ ¬ condition)
      fun _ s => s.nCheckSigs ≤ limit :=
  .ite (fun _ => .throw fun _ spent => spent.2.trans le) fun fails => .pure fun _ spent => ⟨spent, fails⟩

theorem onStacks_spends (program : StackM α) (le : c ≤ limit) :
    CountsTo (Spent o c) (onStacks program) o c limit := by
  intro s spent
  unfold onStacks
  cases program s.toStacks with
  | ok value after => exact spent
  | error exit after => exact spent.2.trans le

theorem checkCanonicalSig_spends (ctx : EvalContext) (vchSig vchPubKey : Bytes) (scriptCode : CScript) :
    CountsTo (Spent o c) (checkCanonicalSig ctx vchSig vchPubKey scriptCode) o (c + 1) limit := by
  refine .ite (fun _ => ?_) fun _ => .pure fun _ spent => ⟨spent.1, Nat.le_succ_of_le spent.2⟩
  have counted : CountsTo (Spent o c) (modify fun s => { s with nCheckSigs := s.nCheckSigs + 1 }) o (c + 1) limit :=
    .modify fun _ spent => ⟨spent.1, Nat.succ_le_succ spent.2⟩
  exact counted.bind fun _ => pure_spends _

theorem execCheckSig_spends (ctx : EvalContext) (verify : Bool) (le : c + 1 ≤ limit) :
    CountsTo (Spent o c) (execCheckSig ctx verify) o (c + 1) limit := by
  have before : c ≤ limit := Nat.le_of_succ_le le
  refine (onStacks_spends _ before).bind fun _ => (onStacks_spends _ before).bind fun vchSig => ?_
  refine (onStacks_spends _ before).bind fun vchPubKey => .bindGet fun start => ?_
  refine (checkCanonicalSig_spends ctx vchSig vchPubKey _).bind fun fSuccess => ?_
  refine (onStacks_spends _ le).bind fun _ => (onStacks_spends _ le).bind fun _ => onStacks_spends _ le

/-- The loop checks at most one signature for each key. -/
theorem multiSigLoop_spends (ctx : EvalContext) (scriptCode : CScript) (nKeysCount nSigsCount ikey isig : Nat)
    (le : c + nKeysCount ≤ limit) :
    CountsTo (Spent o c) (multiSigLoop ctx scriptCode nKeysCount nSigsCount ikey isig) o (c + nKeysCount) limit := by
  induction nKeysCount generalizing nSigsCount ikey isig c with
  | zero =>
      cases nSigsCount with
      | zero => exact pure_spends true
      | succ nSigsCount => exact .throw fun _ spent => spent.2.trans le
  | succ nKeysCount ih =>
      cases nSigsCount with
      | zero => exact .pure fun _ spent => ⟨spent.1, Nat.le_add_right_of_le spent.2⟩
      | succ nSigsCount =>
          refine (onStacks_spends _ (by omega)).bind fun vchSig => ?_
          refine (onStacks_spends _ (by omega)).bind fun vchPubKey => ?_
          refine (checkCanonicalSig_spends ctx vchSig vchPubKey scriptCode).bind fun fOk => .ite (fun _ => ?_) fun _ => ?_
          · exact .pure fun _ spent => ⟨spent.1, spent.2.trans (by omega)⟩
          · have rest := ih (if fOk then (nSigsCount, isig + 1) else (nSigsCount + 1, isig)).1 (ikey + 1)
              (if fOk then (nSigsCount, isig + 1) else (nSigsCount + 1, isig)).2 (c := c + 1) (by omega)
            rwa [Nat.add_right_comm] at rest

theorem addOpcodes_spends (count : Nat) (le : c ≤ limit) :
    CountsTo (Spent o c) (addOpcodes count) (o + count) c limit := by
  have counted : CountsTo (Spent o c) (modify fun s => { s with nOpCount := s.nOpCount + count }) (o + count) c limit :=
    .modify fun _ spent => ⟨congrArg (· + count) spent.1, spent.2⟩
  refine counted.bind fun _ => .bindGet fun before => ?_
  exact (returnFalseIf_spends _ le).conseq fun _ _ spent => spent.1

/-- Every key is counted as an opcode before a signature is checked against it. -/
theorem countKeys_spends (ctx : EvalContext) (verify : Bool) (nKeysCount : Int)
    (le : c + min nKeysCount.toNat 20 ≤ limit) :
    CountsTo (Spent o c) (countKeys ctx verify nKeysCount) (o + nKeysCount.toNat) (c + min nKeysCount.toNat 20) limit := by
  have before : c ≤ limit := by omega
  refine (returnFalseIf_spends _ before).bindFact fun _ range => ?_
  have few : min nKeysCount.toNat 20 = nKeysCount.toNat := by omega
  rw [few] at le ⊢
  refine (addOpcodes_spends _ before).bind fun _ => (onStacks_spends _ before).bind fun nSigsCount => ?_
  refine (returnFalseIf_spends _ before).bindFact fun _ sigs => ?_
  refine (onStacks_spends _ before).bind fun _ => .bindGet fun start => (onStacks_spends _ before).bind fun scriptCode => ?_
  refine (multiSigLoop_spends ctx scriptCode _ _ _ _ le).bind fun fSuccess => ?_
  exact (onStacks_spends _ le).bind fun _ => onStacks_spends _ le

/-- The number of keys that `OP_CHECKMULTISIG` reads from the top of the stack. -/
def keyCount : List Bytes → Nat
  | [] => 0
  | top :: _ => (CBigNum.getint (CBigNum.setvch (CBigNum.getvch (CBigNum.setvch top)))).toNat

theorem readCount_value (stack : List Bytes) :
    Triple (fun s => s.stack = stack) (readCount 1) (fun nKeysCount _ => nKeysCount.toNat = keyCount stack)
      fun _ _ => True := by
  rintro ⟨own, altstack⟩ rfl
  cases own with
  | nil => trivial
  | cons top rest =>
      change Ends _ _ ((castToBigNum top >>= fun bn => pure (CBigNum.getint bn) : StackM Int) ⟨top :: rest, altstack⟩)
      by_cases long : 4 < top.length
      · rw [castToBigNum, if_pos long]
        trivial
      · rw [castToBigNum, if_neg long]
        exact rfl

/-- The public keys that an opcode counts. -/
def Opcode.keysCounted (stack : List Bytes) : Option Opcode → Nat
  | some .opCheckMultiSig => keyCount stack
  | some .opCheckMultiSigVerify => keyCount stack
  | _ => 0

/-- The most checks that an opcode makes. -/
def Opcode.mostChecks (stack : List Bytes) : Option Opcode → Nat
  | some .opCheckSig => 1
  | some .opCheckSigVerify => 1
  | some .opCheckMultiSig => min (keyCount stack) 20
  | some .opCheckMultiSigVerify => min (keyCount stack) 20
  | _ => 0

theorem execCheckMultiSig_spends (ctx : EvalContext) (verify : Bool) (stack : List Bytes) :
    CountsTo (fun s => s.stack = stack ∧ Spent o c s) (execCheckMultiSig ctx verify) (o + keyCount stack)
      (c + min (keyCount stack) 20) (c + min (keyCount stack) 20) := by
  have read := @onStacks_triple _ _ _ _ _ (Spent o c) (fun _ _ spent => spent) (readCount_value stack)
  have counted := read.weaken (fun _ start => start) (fun _ _ final => final.symm)
    fun (_ : Exit) s exit => exit.2.2.trans (Nat.le_add_right c (min (keyCount stack) 20))
  refine counted.bindFact fun nKeysCount same => ?_
  rw [← same]
  exact countKeys_spends ctx verify nKeysCount le_rfl

theorem execIf_spends (fExec notIf : Bool) : CountsTo (Spent o c) (execIf fExec notIf) o c c := by
  have opened : ∀ (fValue : Bool) (s : EvalState), Spent o c s →
      Spent o c { s with vfExec := fValue :: s.vfExec } := fun _ _ spent => spent
  cases fExec with
  | true => exact (onStacks_spends (popCondition notIf) le_rfl).bind fun fValue => .modify (opened fValue)
  | false => exact .modify (opened false)

theorem execElse_spends : CountsTo (Spent o c) execElse o c c := by
  rintro ⟨both, vfExec, nOpCount, pbegincodehash, nCheckSigs⟩ spent
  cases vfExec with
  | nil => exact spent.2
  | cons back rest => exact spent

theorem execEndIf_spends : CountsTo (Spent o c) execEndIf o c c := by
  rintro ⟨both, vfExec, nOpCount, pbegincodehash, nCheckSigs⟩ spent
  cases vfExec with
  | nil => exact spent.2
  | cons back rest => exact spent

theorem execOpcode_spends (ctx : EvalContext) (fExec : Bool) (pc : CScript) (stack : List Bytes) (op : Option Opcode) :
    CountsTo (fun s => s.stack = stack ∧ Spent o c s) (execOpcode ctx fExec pc op)
      (o + Opcode.keysCounted stack op) (c + Opcode.mostChecks stack op) (c + Opcode.mostChecks stack op) := by
  have quiet : ∀ {program : EvalM Unit}, CountsTo (Spent o c) program o c c →
      CountsTo (fun s => s.stack = stack ∧ Spent o c s) program (o + 0) (c + 0) (c + 0) :=
    fun triple s start => triple s start.2
  cases op with
  | none => exact quiet (.throw fun _ spent => spent.2)
  | some op =>
      cases op with
      | opN n => exact quiet (onStacks_spends (push (CBigNum.getvch n)) le_rfl)
      | opNop => exact quiet (pure_spends ())
      | opIf => exact quiet (execIf_spends fExec false)
      | opNotIf => exact quiet (execIf_spends fExec true)
      | opElse => exact quiet execElse_spends
      | opEndIf => exact quiet execEndIf_spends
      | stack op => exact quiet (onStacks_spends _ le_rfl)
      | opCodeSeparator => exact quiet (.modify fun _ spent => spent)
      | opCheckSig => exact fun s start => execCheckSig_spends ctx false le_rfl s start.2
      | opCheckSigVerify => exact fun s start => execCheckSig_spends ctx true le_rfl s start.2
      | opCheckMultiSig => exact execCheckMultiSig_spends ctx false stack
      | opCheckMultiSigVerify => exact execCheckMultiSig_spends ctx true stack

/-- The opcode is executed, not skipped by a condition. -/
def EvalState.executes (s : EvalState) (opcode : UInt8) : Bool := s.fExec || (opIf ≤ opcode && opcode ≤ opEndIf)

/-- The public keys that the opcode counts from this state. -/
def EvalState.keysCounted (s : EvalState) (opcode : UInt8) : Nat :=
  if s.executes opcode then Opcode.keysCounted s.stack (Opcode.ofByte opcode) else 0

/-- The most checks that the opcode makes from this state. -/
def EvalState.mostChecks (s : EvalState) (opcode : UInt8) : Nat :=
  if s.executes opcode then Opcode.mostChecks s.stack (Opcode.ofByte opcode) else 0

/-- One for an opcode above `OP_16`. -/
def aboveOp16 (opcode : UInt8) : Nat := if CScript.op16 < opcode then 1 else 0

theorem ofByte_push : ∀ opcode : UInt8, opcode ≤ CScript.opPushData4 → Opcode.ofByte opcode = none := by
  refine forall_opcode ?_
  decide +kernel

/-- The stack and the conditions are those of another state. -/
def SameView (view s : EvalState) : Prop := s.stack = view.stack ∧ s.vfExec = view.vfExec

theorem dispatch_spends (ctx : EvalContext) (view : EvalState) (opcode : UInt8) (vchPushValue : Bytes) (pc : CScript) :
    CountsTo (fun s => SameView view s ∧ Spent o c s) (dispatch ctx opcode vchPushValue pc)
      (o + view.keysCounted opcode) (c + view.mostChecks opcode) (c + view.mostChecks opcode) := by
  refine Triple.get.bind fun before => ?_
  rintro s ⟨⟨same, spent⟩, rfl⟩
  have exec : before.fExec = view.fExec := congrArg (List.all · id) same.2
  simp only [exec]
  unfold EvalState.keysCounted EvalState.mostChecks EvalState.executes
  cases fExec : view.fExec with
  | true =>
      simp only [Bool.true_and, Bool.true_or, if_true]
      by_cases pushes : opcode ≤ CScript.opPushData4
      · rw [if_pos (decide_eq_true pushes), ofByte_push opcode pushes]
        exact onStacks_spends _ le_rfl before spent
      · rw [if_neg (by simpa using pushes)]
        exact execOpcode_spends ctx true pc view.stack _ before ⟨same.1, spent⟩
  | false =>
      simp only [Bool.false_and, Bool.false_or, Bool.false_eq_true, if_false]
      by_cases branch : (decide (opIf ≤ opcode) && decide (opcode ≤ opEndIf)) = true
      · rw [if_pos branch, if_pos branch, if_pos branch]
        exact execOpcode_spends ctx false pc view.stack _ before ⟨same.1, spent⟩
      · rw [if_neg branch, if_neg branch, if_neg branch]
        exact spent

theorem countOpcode_spends (view : EvalState) (opcode : UInt8) (le : c ≤ limit) :
    Triple (fun s => SameView view s ∧ Spent o c s) (countOpcode opcode)
      (fun _ s => SameView view s ∧ Spent (o + aboveOp16 opcode) c s) fun _ s => s.nCheckSigs ≤ limit := by
  unfold aboveOp16 countOpcode
  by_cases above : CScript.op16 < opcode
  · rw [if_pos above, if_pos above]
    have counted : Triple (fun s => SameView view s ∧ Spent o c s) (modify fun s => { s with nOpCount := s.nOpCount + 1 })
        (fun _ s => SameView view s ∧ Spent (o + 1) c s) fun (_ : Exit) s => s.nCheckSigs ≤ limit :=
      .modify fun s start => ⟨start.1, congrArg (· + 1) start.2.1, start.2.2⟩
    refine counted.bind fun _ => .bindGet fun before => ?_
    exact .ite (fun _ => .throw fun _ start => start.2.2.trans le) fun _ => .pure fun _ start => start
  · rw [if_neg above, if_neg above]
    exact .pure fun _ start => start

/-- What one round adds to the counts. -/
theorem evalStep_spends (ctx : EvalContext) (view : EvalState) (opcode : UInt8) (vchPushValue : Bytes) (pc : CScript) :
    CountsTo (fun s => s = view) (evalStep ctx opcode vchPushValue pc)
      (view.nOpCount + aboveOp16 opcode + view.keysCounted opcode) (view.nCheckSigs + view.mostChecks opcode)
      (view.nCheckSigs + view.mostChecks opcode) := by
  have start : ∀ s, s = view → SameView view s ∧ Spent view.nOpCount view.nCheckSigs s := by
    rintro s rfl
    exact ⟨⟨rfl, rfl⟩, rfl, le_rfl⟩
  have le : view.nCheckSigs ≤ view.nCheckSigs + view.mostChecks opcode := Nat.le_add_right _ _
  refine Triple.weaken ?_ start (fun _ _ final => final) fun _ _ exit => exit
  refine Triple.bind (.ite (fun _ => .throw fun _ here => here.2.2.trans le) fun _ => .pure fun _ here => here)
    fun _ => (countOpcode_spends view opcode le).bind fun _ => ?_
  refine Triple.bind (.ite (fun _ => .throw fun _ here => here.2.2.trans le) fun _ => .pure fun _ here => here)
    fun _ => (dispatch_spends ctx view opcode vchPushValue pc).bind fun _ => .bindGet fun before => ?_
  exact .ite (fun _ => .throw fun _ spent => spent.2) fun _ => .pure fun _ spent => spent

/-! ## Runs of the loop -/

/-- The states of `EvalScript` between two opcodes: what is left of the script, the variables, and the
number of executed opcodes above `OP_16` and of public keys counted on the way. -/
inductive EvalRun (ctx : EvalContext) (stack : List Bytes) (script : CScript) : CScript → EvalState → Nat → Prop where
  | start (short : script.length ≤ 10000) : EvalRun ctx stack script script (.start stack script) 0
  | step {pc next : CScript} {s after : EvalState} {count : Nat} {opcode : UInt8} {vchPushValue : Bytes}
      (prior : EvalRun ctx stack script pc s count)
      (instruction : CScript.getOp pc = some (opcode, vchPushValue, next))
      (executed : evalStep ctx opcode vchPushValue next s = .ok () after) :
      EvalRun ctx stack script next after
        (count + ((if s.executes opcode then aboveOp16 opcode else 0) + s.keysCounted opcode))

/-- The loop of `EvalScript` passes through these states. -/
theorem EvalRun.evalBody_eq {ctx : EvalContext} {stack : List Bytes} {script pc : CScript} {s : EvalState} {count : Nat}
    (run : EvalRun ctx stack script pc s count) :
    ∃ fuel, pc.length ≤ fuel ∧ evalBody ctx stack script = evalLoop ctx fuel pc s := by
  induction run with
  | start short => exact ⟨script.length, le_rfl, if_neg (Nat.not_lt.mpr short)⟩
  | @step pc next s after count opcode vchPushValue prior instruction executed ih =>
      obtain ⟨fuel, enough, same⟩ := ih
      have shorter := CScript.length_of_getOp instruction
      cases pc with
      | nil => cases instruction
      | cons first rest =>
          obtain ⟨fuel, rfl⟩ : ∃ k, fuel = k + 1 := ⟨fuel - 1, by simp only [List.length_cons] at enough; omega⟩
          refine ⟨fuel, by omega, same.trans ?_⟩
          conv_lhs => unfold evalLoop
          simp only [instruction, bind, EStateM.bind, executed]

/-- A script that ends has been read to its last opcode. -/
theorem EvalRun.to_end {ctx : EvalContext} {stack : List Bytes} {script pc : CScript} {s after : EvalState}
    {fuel count : Nat} (run : EvalRun ctx stack script pc s count) (ends : evalLoop ctx fuel pc s = .ok () after) :
    ∃ total, EvalRun ctx stack script [] after total := by
  induction fuel generalizing pc s count with
  | zero =>
      cases pc with
      | nil =>
          cases ends
          exact ⟨count, run⟩
      | cons first rest => cases ends
  | succ fuel ih =>
      cases pc with
      | nil =>
          cases ends
          exact ⟨count, run⟩
      | cons first rest =>
          unfold evalLoop at ends
          cases instruction : CScript.getOp (first :: rest) with
          | none =>
              rw [instruction] at ends
              cases ends
          | some read =>
              obtain ⟨opcode, vchPushValue, next⟩ := read
              simp only [instruction, bind, EStateM.bind] at ends
              cases executed : evalStep ctx opcode vchPushValue next s with
              | error exit left =>
                  rw [executed] at ends
                  cases ends
              | ok value middle =>
                  rw [executed] at ends
                  exact ih (run.step instruction executed) ends

/-- The limits hold between any two opcodes, and the count of opcodes covers what was executed. -/
theorem EvalRun.limits {ctx : EvalContext} {stack : List Bytes} {script pc : CScript} {s : EvalState} {count : Nat}
    (elements : ∀ vch ∈ stack, vch.length ≤ maxScriptElementSize) (size : stack.length ≤ 1000)
    (run : EvalRun ctx stack script pc s count) : s.Limits ∧ count ≤ s.nOpCount := by
  induction run with
  | start short =>
      refine ⟨⟨size, ⟨elements, ?_⟩, Nat.zero_le _⟩, le_rfl⟩
      intro vch member
      cases member
  | @step pc next s after count opcode vchPushValue prior instruction executed ih =>
      obtain ⟨limits, covered⟩ := ih
      have kept := evalStep_proper ctx opcode vchPushValue next s limits
      have counts := evalStep_spends ctx s opcode vchPushValue next s rfl
      rw [executed] at kept counts
      refine ⟨kept, ?_⟩
      rw [counts.1]
      split <;> omega

end Evaluator

/-- The interpreter ends by itself and never leaves a stack: it is left only by `return false` or by a number that
is too long. Between two opcodes the stacks have at most 1000 elements, each within `MAX_SCRIPT_ELEMENT_SIZE`,
and at most 201 opcodes above `OP_16` and public keys have been counted. -/
theorem evalScript_limits (ctx : EvalContext) (stack : List Bytes) (script : CScript)
    (elements : ∀ vch ∈ stack, vch.length ≤ maxScriptElementSize) (size : stack.length ≤ 1000) :
    (∀ exit s, evalBody ctx stack script = .error exit s → exit = .returnFalse ∨ exit = .overflow) ∧
      (∀ s, evalBody ctx stack script = .ok () s → ∃ count, EvalRun ctx stack script [] s count) ∧
      ∀ pc s count, EvalRun ctx stack script pc s count →
        s.stack.length + s.altstack.length ≤ 1000 ∧
          (∀ vch ∈ s.stack ++ s.altstack, vch.length ≤ maxScriptElementSize) ∧ count ≤ 201 := by
  refine ⟨?_, ?_, ?_⟩
  · intro exit s leaves
    unfold evalBody at leaves
    split at leaves
    · cases leaves
      exact Or.inl rfl
    · have start : (EvalState.start stack script).Limits :=
        ⟨size, ⟨elements, fun _ member => nomatch member⟩, Nat.zero_le _⟩
      have proper := evalLoop_proper ctx (le_refl script.length) (EvalState.start stack script) start
      rw [leaves] at proper
      cases exit with
      | returnFalse => exact Or.inl rfl
      | overflow => exact Or.inr rfl
      | outOfRange => exact proper.elim
      | outOfFuel => exact proper.elim
  · intro s ends
    unfold evalBody at ends
    split at ends
    · cases ends
    · rename_i short
      exact (EvalRun.start (Nat.le_of_not_lt short)).to_end ends
  · intro pc s count run
    obtain ⟨limits, covered⟩ := run.limits elements size
    refine ⟨limits.sizes, fun vch member => ?_, covered.trans limits.opcodes⟩
    rcases List.mem_append.mp member with main | alternative
    · exact limits.elements.1 vch main
    · exact limits.elements.2 vch alternative

/-- Stand-ins for the hash functions, and keys under which every signature verifies. -/
def sampleCrypto : Crypto :=
  ⟨lastBytes, fun vch => .ofNat 160 (CScript.littleEndian vch), fun vch => .ofNat 160 (CScript.littleEndian vch),
    fun vch => .ofNat 160 (CScript.littleEndian vch), lastBytes, fun _ => true, fun _ _ _ => true⟩

/-- `OP_DUP OP_TOALTSTACK` moves a copy to the other stack. -/
theorem evalScript_limits_sample :
    ∃ s, evalBody ⟨sampleCrypto, sampleTx, 0, 1⟩ [[7]] [0x76, 0x6b] = .ok () s ∧ s.altstack = [[7]] ∧
      s.stack.length + s.altstack.length ≤ 1000 := by
  obtain ⟨-, ends, limits⟩ := evalScript_limits ⟨sampleCrypto, sampleTx, 0, 1⟩ [[7]] [0x76, 0x6b]
    (by decide) (by decide)
  obtain ⟨count, run⟩ := ends _ rfl
  exact ⟨_, rfl, rfl, (limits _ _ _ run).1⟩

end InfiniteRicks
