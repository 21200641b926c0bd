import InfiniteRicks.MultiSig
import InfiniteRicks.ScriptBuild
import InfiniteRicks.SolverSpec

/-!
# Running the standard scripts

A script of a template is run operation by operation. `OpSteps` follows the operations that the
script is read as, so what a template accepts is computed from the template alone, whatever
opcodes its pushes have.
-/

namespace InfiniteRicks

open Library.Hoare CScript

/-! ## Scripts without a signature in them -/

namespace CScript

/-- A script that pushes other things than the signature does not contain a push of it. -/
theorem eraseCopies_other {sig : Bytes} {pc next : CScript} {op : Op} (limit : sig.length < 2 ^ 32)
    (read : getOp pc = some (op.1, op.2, next)) (other : op.2 ≠ sig) (fuel : Nat) :
    eraseCopies (pushData sig) fuel pc = pc := by
  cases fuel with
  | zero => rfl
  | succ fuel =>
      rw [eraseCopies, if_neg]
      intro found
      obtain ⟨rest, rfl⟩ := List.isPrefixOf_iff_prefix.mp found
      have pushed := getOp_pushed limit rest
      rw [read] at pushed
      exact other (Prod.mk.inj (Prod.mk.inj (Option.some.inj pushed)).2).1

theorem eraseCopies_nil {b : CScript} (nonempty : b ≠ []) (fuel : Nat) : eraseCopies b fuel [] = [] := by
  cases fuel with
  | zero => rfl
  | succ fuel =>
      rw [eraseCopies, if_neg]
      intro found
      exact nonempty (List.prefix_nil.mp (List.isPrefixOf_iff_prefix.mp found))

theorem pushData_ne_nil (vch : Bytes) : pushData vch ≠ [] := by
  unfold pushData
  split_ifs <;> exact List.cons_ne_nil _ _

/-- What is left behind an instruction is the end of the script. -/
theorem suffix_of_getOp {pc next : CScript} {opcode : UInt8} {data : Bytes}
    (read : getOp pc = some (opcode, data, next)) : next <:+ pc := by
  cases pc with
  | nil => cases read
  | cons first pc =>
      rw [getOp] at read
      dsimp only at read
      split_ifs at read with push cut width short short'
      · obtain ⟨-, -, rfl⟩ := by simpa only [Option.some.injEq, Prod.mk.injEq] using read
        exact ((List.drop_suffix _ _).trans (List.drop_suffix _ _)).trans (List.suffix_cons _ _)
      · obtain ⟨-, -, rfl⟩ := by simpa only [Option.some.injEq, Prod.mk.injEq] using read
        exact ((List.drop_suffix _ _).trans (List.drop_suffix _ _)).trans (List.suffix_cons _ _)
      · obtain ⟨-, -, rfl⟩ := by simpa only [Option.some.injEq, Prod.mk.injEq] using read
        exact List.suffix_cons _ _

/-- An instruction has an opcode, at most four bytes of a size, and its data. -/
theorem length_le_of_getOp {pc next : CScript} {opcode : UInt8} {data : Bytes}
    (read : getOp pc = some (opcode, data, next)) : pc.length ≤ 5 + data.length + next.length := by
  have width : ∀ opcode, pushWidth opcode ≤ 4 := by
    intro opcode
    unfold pushWidth
    split_ifs <;> decide
  cases pc with
  | nil => cases read
  | cons first pc =>
      have few := width first
      rw [getOp] at read
      dsimp only at read
      split_ifs at read with push cut direct short short'
      · obtain ⟨-, rfl, rfl⟩ := by simpa only [Option.some.injEq, Prod.mk.injEq] using read
        simp only [List.length_cons, List.length_drop, List.length_take] at short ⊢
        omega
      · obtain ⟨-, rfl, rfl⟩ := by simpa only [Option.some.injEq, Prod.mk.injEq] using read
        simp only [List.length_cons, List.length_drop, List.length_take] at short' ⊢
        omega
      · obtain ⟨-, rfl, rfl⟩ := by simpa only [Option.some.injEq, Prod.mk.injEq] using read
        simp only [List.length_cons, List.length_nil]
        omega

theorem take_of_getOp {pc next : CScript} {opcode : UInt8} {data : Bytes}
    (read : getOp pc = some (opcode, data, next)) : pc.take (pc.length - next.length) ++ next = pc := by
  obtain ⟨front, rfl⟩ := suffix_of_getOp read
  rw [List.length_append, Nat.add_sub_cancel, List.take_left]

theorem findAndDeleteLoop_other {sig : Bytes} (limit : sig.length < 2 ^ 32) {pc : CScript} {ops : List Op}
    (parses : Parses pc ops) (others : ∀ op ∈ ops, op.2 ≠ sig) {fuel : Nat} (enough : ops.length < fuel) :
    findAndDeleteLoop (pushData sig) fuel pc = pc := by
  induction ops generalizing pc fuel with
  | nil =>
      obtain rfl := reads_nil.mp parses
      obtain ⟨fuel, rfl⟩ := Nat.exists_eq_add_of_lt enough
      rw [List.length_nil, Nat.zero_add, findAndDeleteLoop, eraseCopies_nil (pushData_ne_nil sig)]
      rfl
  | cons op ops ih =>
      obtain ⟨next, read, rest⟩ := reads_cons.mp parses
      obtain ⟨own, others⟩ := List.forall_mem_cons.mp others
      obtain ⟨fuel, rfl⟩ : ∃ k, fuel = k + 1 := ⟨fuel - 1, by omega⟩
      rw [findAndDeleteLoop, eraseCopies_other limit read own, read]
      dsimp only
      rw [ih rest others (by rw [List.length_cons] at enough; omega), take_of_getOp read]

/-- Deleting a signature from a script that does not push it changes nothing. -/
theorem findAndDelete_other {sig : Bytes} (limit : sig.length < 2 ^ 32) {script : CScript} {ops : List Op}
    (parses : Parses script ops) (others : ∀ op ∈ ops, op.2 ≠ sig) : script.findAndDelete (pushData sig) = script := by
  have enough := Reads.length_le parses
  rw [findAndDelete, if_neg (by simpa using pushData_ne_nil sig)]
  exact findAndDeleteLoop_other limit parses others (by rw [List.length_nil] at enough; omega)

end CScript

/-! ## One operation -/

section Step

variable {ctx : EvalContext} {s : EvalState} {pc : CScript}

theorem get_ok {σ : Type} (s : σ) : (get : EStateM Exit σ σ) s = .ok s s := rfl

theorem fExec_of_nil (executed : s.vfExec = []) : s.fExec = true := by
  rw [EvalState.fExec, executed]
  rfl

/-- The last test of a round. -/
theorem evalStep_ok {opcode : UInt8} {vchPushValue : Bytes} {counted after : EvalState}
    (size : vchPushValue.length ≤ maxScriptElementSize) (count : countOpcode opcode s = .ok () counted)
    (enabled : isDisabled opcode = false) (run : dispatch ctx opcode vchPushValue pc counted = .ok () after)
    (room : after.stack.length + after.altstack.length ≤ 1000) :
    evalStep ctx opcode vchPushValue pc s = .ok () after := by
  refine (bind_ok (returnFalseIf_ok (Nat.not_lt.mpr size))).trans ((bind_ok count).trans ?_)
  refine (bind_ok (returnFalseIf_ok (by rw [enabled]; exact Bool.false_ne_true))).trans ((bind_ok run).trans ?_)
  exact (bind_ok (get_ok after)).trans (returnFalseIf_ok (Nat.not_lt.mpr room))

/-- An opcode that is not a push or a number, is not disabled, and is not skipped. -/
theorem evalStep_executed {opcode : UInt8} (above : op16 < opcode) (enabled : isDisabled opcode = false)
    (executed : s.vfExec = []) (within : s.nOpCount + 1 ≤ 201) {after : EvalState}
    (run : execOpcode ctx true pc (Opcode.ofByte opcode) { s with nOpCount := s.nOpCount + 1 } = .ok () after)
    (room : after.stack.length + after.altstack.length ≤ 1000) : evalStep ctx opcode [] pc s = .ok () after := by
  have count : countOpcode opcode s = .ok () { s with nOpCount := s.nOpCount + 1 } := by
    rw [countOpcode, if_pos above, addOpcodes_ok within]
  refine evalStep_ok (Nat.zero_le _) count enabled ((bind_ok (get_ok _)).trans ?_) room
  have exec : EvalState.fExec { s with nOpCount := s.nOpCount + 1 } = true := fExec_of_nil executed
  have plain : ¬ opcode ≤ opPushData4 := UInt8.not_le.mpr (UInt8.lt_trans (by decide) above)
  rw [exec, Bool.true_and, if_neg (by rw [decide_eq_false plain]; exact Bool.false_ne_true), Bool.true_or, if_pos rfl]
  exact run

theorem ofByte_opN : ∀ n < 17, 1 ≤ n → Opcode.ofByte (Solver.opN n) = some (.opN n) := by decide

theorem evalStep_number {n : Nat} (positive : 1 ≤ n) (small : n ≤ 16) (executed : s.vfExec = [])
    (room : s.stack.length + 1 + s.altstack.length ≤ 1000) :
    evalStep ctx (Solver.opN n) [] pc s = .ok () { s with stack := CBigNum.getvch n :: s.stack } := by
  have value := Solver.toNat_opN small
  have low : ¬ op16 < Solver.opN n := by
    rw [UInt8.lt_iff_toNat_lt, value]
    exact Nat.not_lt.mpr (Nat.add_le_add_right small 80)
  have high : ¬ Solver.opN n ≤ opPushData4 := by
    rw [UInt8.le_iff_toNat_le, value, show opPushData4.toNat = 78 from rfl]
    omega
  have enabled : ∀ n < 17, 1 ≤ n → isDisabled (Solver.opN n) = false := by decide
  have count : countOpcode (Solver.opN n) s = .ok () s := by
    rw [countOpcode, if_neg low]
    rfl
  refine evalStep_ok (Nat.zero_le _) count (enabled n (by omega) positive)
    ((bind_ok (get_ok _)).trans ?_) (by simpa using room)
  rw [fExec_of_nil executed, Bool.true_and, if_neg (by rw [decide_eq_false high]; exact Bool.false_ne_true),
    Bool.true_or, if_pos rfl, ofByte_opN n (by omega) positive]
  rfl

/-- The check of a signature, with what is left of the stack. -/
theorem execCheckSig_ok {key sig : Bytes} {rest : List Bytes} (stack : s.stack = key :: sig :: rest) :
    ∃ nCheckSigs, execCheckSig ctx false s =
      .ok () { s with
        stack := (if ctx.accepts (s.pbegincodehash.findAndDelete (pushData sig)) sig key then vchTrue else vchFalse) ::
          rest
        nCheckSigs := nCheckSigs } := by
  obtain ⟨⟨own, altstack⟩, vfExec, nOpCount, pbegincodehash, nCheckSigs⟩ := s
  obtain rfl : own = key :: sig :: rest := stack
  obtain ⟨counted, checked⟩ := @checkCanonicalSig_ok ctx
    ⟨⟨key :: sig :: rest, altstack⟩, vfExec, nOpCount, pbegincodehash, nCheckSigs⟩ sig key
    (pbegincodehash.findAndDelete (pushData sig))
  exact ⟨counted, (bind_ok checked).trans rfl⟩

theorem execEqual_eq (vch1 vch2 : Bytes) (rest altstack : List Bytes) (verify : Bool) :
    StackOp.execEqual verify ⟨vch1 :: vch2 :: rest, altstack⟩ =
      pushVerdict (decide (vch2 = vch1)) verify ⟨rest, altstack⟩ := rfl

theorem execEqual_verify (vch : Bytes) (rest altstack : List Bytes) :
    StackOp.execEqual true ⟨vch :: vch :: rest, altstack⟩ = .ok () ⟨rest, altstack⟩ := by
  rw [execEqual_eq, pushVerdict_verify, if_pos (decide_eq_true rfl)]

/-- A small number is read back as a count. -/
theorem readCount_number {s : Stacks} {i n : Nat} (small : n ≤ 16) (deep : i ≤ s.stack.length)
    (number : s.stack[i - 1]? = some (CBigNum.getvch n)) : readCount i s = .ok (n : Int) s := by
  have short : ¬ 4 < (CBigNum.getvch n).length := by
    have all : ∀ n < 17, ¬ 4 < (CBigNum.getvch (n : Nat)).length := by decide
    exact all n (by omega)
  have value : CBigNum.getint n = n := by
    rw [CBigNum.getint, if_pos (Int.natCast_nonneg n), if_neg (by omega)]
  have top : stacktop i s = .ok (CBigNum.getvch n) s := by
    refine (bind_ok rfl).trans ?_
    rw [number]
    rfl
  have cast : castToBigNum (CBigNum.getvch n) s = .ok (n : Int) s := by
    rw [castToBigNum, if_neg short, CBigNum.setvch_getvch, CBigNum.setvch_getvch]
    rfl
  refine (bind_ok (need_ok deep)).trans ((bind_ok top).trans ((bind_ok cast).trans ?_))
  rw [value]
  rfl

end Step

/-! ## The operations of a script -/

/-- The operations take one state to another, wherever they stand in the script. -/
inductive OpSteps (ctx : EvalContext) : List Op → EvalState → EvalState → Prop
  | nil (s : EvalState) : OpSteps ctx [] s s
  | cons {op : Op} {ops : List Op} {s mid after : EvalState} (first : ∀ pc, evalStep ctx op.1 op.2 pc s = .ok () mid)
      (rest : OpSteps ctx ops mid after) : OpSteps ctx (op :: ops) s after

section Run

variable {ctx : EvalContext} {s after : EvalState} {ops : List Op}

theorem OpSteps.append {mid : EvalState} {more : List Op} (first : OpSteps ctx ops s mid)
    (second : OpSteps ctx more mid after) :
    OpSteps ctx (ops ++ more) s after := by
  induction first with
  | nil s => exact second
  | cons step _ ih => exact .cons step (ih second)

theorem evalLoop_steps {pc : CScript} (parses : Parses pc ops) (steps : OpSteps ctx ops s after) {fuel : Nat}
    (enough : ops.length ≤ fuel) : evalLoop ctx fuel pc s = .ok () after := by
  induction steps generalizing pc fuel with
  | nil s =>
      obtain rfl := reads_nil.mp parses
      cases fuel <;> rfl
  | @cons op ops s mid after first rest ih =>
      obtain ⟨next, read, behind⟩ := reads_cons.mp parses
      obtain ⟨fuel, rfl⟩ : ∃ k, fuel = k + 1 := ⟨fuel - 1, by rw [List.length_cons] at enough; omega⟩
      cases pc with
      | nil => cases read
      | cons byte pc =>
          unfold evalLoop
          rw [read]
          exact (bind_ok (first next)).trans (ih behind (by rw [List.length_cons] at enough; omega))

/-- A script whose operations can all be taken, with no branch left open. -/
theorem evalScript_steps {stack : List Bytes} {script : CScript} (limit : script.length ≤ 10000)
    (parses : Parses script ops) (steps : OpSteps ctx ops (.start stack script) after) (closed : after.vfExec = []) :
    evalScript ctx stack script = (true, after) := by
  have enough := Reads.length_le parses
  rw [evalScript, evalBody, if_neg (Nat.not_lt.mpr limit),
    evalLoop_steps parses steps (by rw [List.length_nil] at enough; omega)]
  exact congrArg (·, after) (by rw [closed]; rfl)

/-- A script is no longer than its operations with their sizes and their data. -/
theorem length_le_of_reads {pc last : CScript} (reads : Reads pc ops last) :
    pc.length ≤ last.length + (ops.map fun op => 5 + op.2.length).sum := by
  induction reads with
  | nil pc => exact le_rfl
  | cons first _ ih =>
      have own := length_le_of_getOp first
      rw [List.map_cons, List.sum_cons]
      omega

/-- Data is pushed by the opcodes that are pushes. -/
theorem Reads.push_of_data {pc last : CScript} (reads : Reads pc ops last) :
    ∀ op ∈ ops, op.2 ≠ [] → op.1 ≤ opPushData4 := by
  induction reads with
  | nil => exact fun _ member => nomatch member
  | cons first _ ih =>
      refine List.forall_mem_cons.mpr ⟨fun data => ?_, ih⟩
      by_contra plain
      exact data (getOp_data first (.inr (UInt8.not_le.mp plain)))

theorem steps_pushes {pushes : List Op} (each : ∀ push ∈ pushes, push.1 ≤ opPushData4 ∧
    push.2.length ≤ maxScriptElementSize)
    (executed : s.vfExec = []) (room : s.stack.length + pushes.length + s.altstack.length ≤ 1000) :
    OpSteps ctx pushes s { s with stack := (pushes.map Prod.snd).reverse ++ s.stack } := by
  induction pushes generalizing s with
  | nil => exact .nil s
  | cons push pushes ih =>
      obtain ⟨own, others⟩ := List.forall_mem_cons.mp each
      rw [List.length_cons] at room
      refine .cons (fun pc => evalStep_push ctx own.1 own.2 executed (by omega)) ?_
      rw [List.map_cons, List.reverse_cons, List.append_assoc]
      exact @ih { s with stack := push.2 :: s.stack } others executed
        (show s.stack.length + 1 + pushes.length + s.altstack.length ≤ 1000 by omega)

/-- The script ends with a verdict on top of the stack. -/
def Answers (ctx : EvalContext) (script : CScript) (stack : List Bytes) (verdict : Bool) (rest : List Bytes) : Prop :=
  ∃ after, evalScript ctx stack script = (true, after) ∧
    after.stack = (if verdict then vchTrue else vchFalse) :: rest

variable {script : CScript} {rest : List Bytes}

/-- `OP_CHECKSIG` answers whether the signature is accepted. -/
theorem steps_checkSig {key sig : Bytes} (stack : s.stack = key :: sig :: rest) (executed : s.vfExec = [])
    (within : s.nOpCount + 1 ≤ 201) (room : s.stack.length + s.altstack.length ≤ 1000) :
    ∃ after, OpSteps ctx [(opCheckSig, [])] s after ∧ after.vfExec = [] ∧
      after.stack = (if ctx.accepts (s.pbegincodehash.findAndDelete
        (pushData sig)) sig key then vchTrue else vchFalse) ::
        rest := by
  obtain ⟨nCheckSigs, run⟩ := @execCheckSig_ok ctx { s with nOpCount := s.nOpCount + 1 } key sig rest stack
  refine ⟨_, .cons (fun pc => evalStep_executed (by decide) (by decide) executed within run ?_) (.nil _), executed, rfl⟩
  rw [stack] at room
  simp only [List.length_cons] at room ⊢
  omega

/-- A state in which nothing is skipped. -/
def EvalState.running (script : CScript) (stack : List Bytes) (nOpCount : Nat) : EvalState :=
  ⟨⟨stack, []⟩, [], nOpCount, script, 0⟩

theorem push_ne_nil {data : Bytes} {n : Nat} (size : n + 1 ≤ data.length) : data ≠ [] := by
  rintro rfl
  exact Nat.not_succ_le_zero n size

theorem answers_pubKey {opcode : UInt8} {key sig : Bytes} (parses : Parses script [(opcode, key), (opCheckSig, [])])
    (limit : script.length ≤ 10000) (sized : Solver.Sized key) (clean : script.findAndDelete (pushData sig) = script)
    (room : rest.length + 2 ≤ 1000) : Answers ctx script (sig :: rest) (ctx.accepts script sig key) rest := by
  have push := Reads.push_of_data parses (opcode, key) List.mem_cons_self (push_ne_nil sized.1)
  obtain ⟨after, steps, closed, stack⟩ := @steps_checkSig ctx (.running script
    (key :: sig :: rest) 0) rest key sig rfl rfl
    (show 0 + 1 ≤ 201 by decide) room
  refine ⟨after, evalScript_steps limit parses (.cons (fun pc => evalStep_push ctx push
    (sized.2.trans (by decide)) rfl room) steps) closed, ?_⟩
  rw [stack]
  exact congrArg (fun code => (if ctx.accepts code sig key then vchTrue else vchFalse) :: rest) clean

/-- With the public key of the hash, `OP_EQUALVERIFY` goes on. -/
theorem answers_pubKeyHash {opcode : UInt8} {hash key sig : Bytes}
    (parses : Parses script
      [(Solver.opDup, []), (opHash160, []), (opcode, hash), (Solver.opEqualVerify, []), (opCheckSig, [])])
    (limit : script.length ≤ 10000) (sized : hash.length = 20) (same : HashOp.opHash160.apply ctx.crypto key = hash)
    (clean : script.findAndDelete (pushData sig) = script) (room : rest.length + 4 ≤ 1000) :
    Answers ctx script (key :: sig :: rest) (ctx.accepts script sig key) rest := by
  have push := Reads.push_of_data parses (opcode, hash) (by simp) (push_ne_nil sized.ge)
  obtain ⟨after, steps, closed, stack⟩ := @steps_checkSig ctx (.running script
    (key :: sig :: rest) 3) rest key sig rfl rfl
    (show 3 + 1 ≤ 201 by decide) (show rest.length + 2 ≤ 1000 by omega)
  refine ⟨after, evalScript_steps limit parses ?_ closed, ?_⟩
  · refine @OpSteps.cons ctx _ _ _ (.running script (key :: key :: sig :: rest) 1) _ (fun pc => ?_) ?_
    · exact evalStep_executed (by decide) (by decide) rfl (show 0 + 1 ≤ 201 by decide) rfl
        (show rest.length + 3 ≤ 1000 by omega)
    refine @OpSteps.cons ctx _ _ _ (.running script (hash :: key :: sig :: rest) 2) _ (fun pc => ?_) ?_
    · refine evalStep_executed (by decide) (by decide) rfl (show 1 + 1 ≤ 201 by decide) ?_
        (show rest.length + 3 ≤ 1000 by omega)
      rw [← same]
      rfl
    refine @OpSteps.cons ctx _ _ _ (.running script (hash :: hash :: key :: sig :: rest) 2) _ (fun pc => ?_) ?_
    · exact evalStep_push ctx push (sized.le.trans (by decide)) rfl (show rest.length + 4 ≤ 1000 by omega)
    refine @OpSteps.cons ctx _ _ _ (.running script (key :: sig :: rest) 3) _ (fun pc => ?_) steps
    · refine evalStep_executed (by decide) (by decide) rfl (show 2 + 1 ≤ 201 by decide) ?_
        (show rest.length + 2 ≤ 1000 by omega)
      exact onStacks_ok (execEqual_verify hash (key :: sig :: rest) [])
  · rw [stack]
    exact congrArg (fun code => (if ctx.accepts code sig key then vchTrue else vchFalse) :: rest) clean

theorem foldl_findAndDelete {sigs : List Bytes} (clean : ∀ sig ∈ sigs, script.findAndDelete (pushData sig) = script) :
    sigs.foldl (fun code vchSig => code.findAndDelete (pushData vchSig)) script = script := by
  induction sigs with
  | nil => rfl
  | cons sig sigs ih =>
      obtain ⟨own, others⟩ := List.forall_mem_cons.mp clean
      rw [List.foldl_cons, own]
      exact ih others

/-- `OP_CHECKMULTISIG` answers whether the signatures are accepted in the order of the keys. -/
theorem answers_multisig {m n : Nat} {pushes : List Op} {sigs : List Bytes} {dummy : Bytes}
    (parses : Parses script ((Solver.opN m, []) :: pushes ++ [(Solver.opN n, []), (opCheckMultiSig, [])]))
    (limit : script.length ≤ 10000) (required : 1 ≤ m ∧ m ≤ n ∧ n ≤ 16) (all : pushes.length = n)
    (sized : ∀ push ∈ pushes, Solver.Sized push.2) (signed : sigs.length = m)
    (clean : ∀ sig ∈ sigs, script.findAndDelete (pushData sig) = script) (room : rest.length ≤ 900) :
    Answers ctx script (sigs ++ dummy :: rest)
      (Library.Assignment.greedy (ctx.accepts script) sigs (pushes.map Prod.snd).reverse) rest := by
  have keysLength : (pushes.map Prod.snd).reverse.length = n := by rw [List.length_reverse, List.length_map, all]
  generalize keysEq : (pushes.map Prod.snd).reverse = keys at keysLength
  have opcodes := Reads.push_of_data parses
  have each : ∀ push ∈ pushes, push.1 ≤ opPushData4 ∧ push.2.length ≤ maxScriptElementSize := fun push member =>
    ⟨opcodes push (List.mem_cons_of_mem _ (List.mem_append_left _ member)) (push_ne_nil (sized push member).1),
      (sized push member).2.trans (by decide)⟩
  -- The stack at `OP_CHECKMULTISIG`, and what the opcode finds in it.
  let stack := CBigNum.getvch n :: (keys ++ CBigNum.getvch m :: (sigs ++ dummy :: rest))
  have size : stack.length = rest.length + 3 + n + m := by
    simp only [stack, List.length_cons, List.length_append]
    omega
  let ready := EvalState.running script stack 1
  have keySlice : ready.toStacks.slice 2 n = keys := by
    exact (congrArg (List.take · (keys ++ CBigNum.getvch m ::
      (sigs ++ dummy :: rest))) keysLength.symm).trans List.take_left
  have split : stack = (CBigNum.getvch n :: keys ++ [CBigNum.getvch m]) ++ (sigs ++ dummy :: rest) := by
    simp [stack]
  have front : (CBigNum.getvch n :: keys ++ [CBigNum.getvch m]).length = 3 + n - 1 := by
    rw [List.length_append, List.length_cons, List.length_singleton]
    omega
  have sigSlice : ready.toStacks.slice (3 + n) m = sigs := by
    change (stack.drop (3 + n - 1)).take m = sigs
    rw [split, List.drop_left' front, ← signed, List.take_left]
  have count : ready.stack[2 + n - 1]? = some (CBigNum.getvch m) := by
    change (CBigNum.getvch n :: (keys ++ CBigNum.getvch m :: (sigs ++ dummy :: rest)))[2 + n - 1]? = _
    rw [show 2 + n - 1 = keys.length + 1 by omega, List.getElem?_cons_succ, List.getElem?_append_right le_rfl,
      Nat.sub_self, List.getElem?_cons_zero]
  have arguments : MultiSigArguments ready n m := {
    keys := readCount_number required.2.2 (by change 1 ≤ stack.length; omega) rfl
    keysRange := by omega
    opcodes := by change 1 + n ≤ 201; omega
    sigs := readCount_number (by omega) (by change 2 + n ≤ stack.length; omega) count
    sigsRange := required.2.1
    deep := by change 3 + n + m ≤ stack.length; omega }
  have code : ready.multiSigCode n m = script := by
    rw [EvalState.multiSigCode, sigSlice]
    exact foldl_findAndDelete clean
  obtain ⟨nCheckSigs, run⟩ := @MultiSigArguments.run ctx ready n m arguments false
  rw [code, keySlice, sigSlice] at run
  have verdict := run.trans (onStacks_ok (pushVerdict_ok _ _))
  have left : ready.stack.drop (3 + n + m) = rest := by
    change stack.drop (3 + n + m) = rest
    rw [split, show 3 + n + m = (3 + n - 1) + (m + 1) by omega, ← List.drop_drop, List.drop_left' front, ← signed,
      ← List.drop_drop, List.drop_left]
    rfl
  rw [left] at verdict
  have last := @OpSteps.cons ctx (opCheckMultiSig, []) _ (.running script stack 0) _ _ (fun pc =>
    evalStep_executed (by decide) (by decide) rfl (show 0 + 1 ≤ 201 by decide) verdict
      (show rest.length + 1 ≤ 1000 by omega)) (.nil _)
  have pushed := @steps_pushes ctx (.running script (CBigNum.getvch m :: (sigs ++ dummy :: rest)) 0) pushes each rfl
    (show (sigs ++ dummy :: rest).length + 1 + pushes.length ≤ 1000 by
      rw [List.length_append, List.length_cons]
      omega)
  rw [keysEq] at pushed
  refine ⟨_, evalScript_steps limit parses (.append (.cons (fun pc => ?_) pushed) (.cons (fun pc => ?_) last)) rfl, rfl⟩
  · exact evalStep_number (by omega) (by omega) rfl (show (sigs ++ dummy :: rest).length + 1 ≤ 1000 by
      rw [List.length_append, List.length_cons]
      omega)
  · exact evalStep_number (s := .running script (keys ++ CBigNum.getvch m :: (sigs ++ dummy :: rest)) 0) (by omega)
      (by omega) rfl (by change stack.length ≤ 1000; omega)

/-- The hash of a script is compared with the script below it. -/
theorem answers_scriptHash {hash redeem : Bytes} (parses : Parses script [(opHash160, []), (20, hash), (opEqual, [])])
    (room : rest.length + 2 ≤ 1000) :
    Answers ctx script (redeem :: rest) (decide (HashOp.opHash160.apply ctx.crypto redeem = hash)) rest := by
  obtain ⟨sized, same⟩ := Solver.parses_scriptHash.mp parses
  have limit : script.length ≤ 10000 := by
    rw [same]
    simp [sized]
  let verdict := if decide (HashOp.opHash160.apply ctx.crypto redeem = hash) then vchTrue else vchFalse
  refine ⟨.running script (verdict :: rest) 2, evalScript_steps limit parses ?_ rfl, rfl⟩
  refine @OpSteps.cons ctx _ _ _ (.running script (HashOp.opHash160.apply ctx.crypto redeem :: rest) 1) _
    (fun pc => ?_) ?_
  · exact evalStep_executed (by decide) (by decide) rfl (show 0 + 1 ≤ 201 by decide) rfl
      (show rest.length + 1 ≤ 1000 by omega)
  refine @OpSteps.cons ctx _ _ _ (.running script (hash :: HashOp.opHash160.apply ctx.crypto redeem :: rest) 1) _
    (fun pc => ?_) ?_
  · exact evalStep_push ctx (show (20 : UInt8) ≤ opPushData4 by decide) (sized.le.trans (by decide)) rfl
      (show rest.length + 2 ≤ 1000 by omega)
  refine @OpSteps.cons ctx _ _ _ (.running script (verdict :: rest) 2) _ (fun pc => ?_) (.nil _)
  refine evalStep_executed (by decide) (by decide) rfl (show 1 + 1 ≤ 201 by decide) ?_
    (show rest.length + 1 ≤ 1000 by omega)
  have run : StackOp.execEqual false ⟨hash :: HashOp.opHash160.apply ctx.crypto redeem :: rest, []⟩ =
      .ok () ⟨verdict :: rest, []⟩ := (execEqual_eq _ _ _ _ _).trans (pushVerdict_ok _ _)
  exact onStacks_ok (s := .running script (hash :: HashOp.opHash160.apply ctx.crypto redeem :: rest) 2) run

/-! ## The whole verification -/

theorem isPushOnlyLoop_pushes {values : List Bytes} (sizes : ∀ v ∈ values, v.length ≤ maxScriptElementSize) {fuel : Nat}
    (enough : values.length ≤ fuel) : isPushOnlyLoop fuel (values.flatMap pushData) = true := by
  induction values generalizing fuel with
  | nil => cases fuel <;> rfl
  | cons v rest ih =>
      obtain ⟨own, others⟩ := List.forall_mem_cons.mp sizes
      rw [List.length_cons] at enough
      obtain ⟨fuel, rfl⟩ : ∃ k, fuel = k + 1 := ⟨fuel - 1, by omega⟩
      have read := @getOp_pushed v (own.trans_lt (by decide)) (rest.flatMap pushData)
      have pushes : ¬ op16 < pushOpcodeOf v :=
        UInt8.not_lt.mpr (UInt8.le_trans (pushOpcodeOf_le v) (by decide))
      rw [List.flatMap_cons, isPushOnlyLoop, read]
      split_ifs
      · rfl
      · dsimp only
        rw [if_neg pushes]
        exact ih others (by omega)

theorem length_le_pushes (values : List Bytes) : values.length ≤ (values.flatMap pushData).length := by
  induction values with
  | nil => exact le_rfl
  | cons v rest ih =>
      have own := List.length_pos_iff.mpr (pushData_ne_nil v)
      rw [List.flatMap_cons, List.length_append, List.length_cons]
      omega

/-- Values that fit on the stack with room for more, in a script that is not too long. -/
structure Pushable (values : List Bytes) : Prop where
  sizes : ∀ v ∈ values, v.length ≤ maxScriptElementSize
  few : values.length ≤ 900
  limit : (CScript.pushAll values).length ≤ 10000

theorem Pushable.isPushOnly {values : List Bytes} (pushable : Pushable values) :
    CScript.isPushOnly (CScript.pushAll values) = true := by
  rw [CScript.isPushOnly, pushAll_eq]
  exact isPushOnlyLoop_pushes pushable.sizes (length_le_pushes values)

theorem verifyScript_standard {values : List Bytes} {scriptPubKey : CScript} (pushable : Pushable values)
    (other : scriptPubKey.isPayToScriptHash = false) (answers : Answers ctx scriptPubKey values.reverse true rest) :
    verifyScript ctx (CScript.pushAll values) scriptPubKey = true := by
  obtain ⟨after, run, stack⟩ := answers
  rw [verifyScript, evalScript_pushAll ctx pushable.sizes (pushable.few.trans (by decide)) pushable.limit]
  dsimp only [EvalState.start]
  rw [run]
  dsimp only
  rw [stack, other]
  rfl

/-- The redeem script is the last value, and its hash is in the script. -/
theorem verifyScript_redeem {values : List Bytes} {scriptPubKey redeem : CScript} {hash : Bytes}
    (pushable : Pushable (values ++ [redeem]))
    (parses : Parses scriptPubKey [(opHash160, []), (20, hash), (opEqual, [])])
    (same : HashOp.opHash160.apply ctx.crypto redeem = hash) (answers : Answers ctx redeem values.reverse true rest) :
    verifyScript ctx (CScript.pushAll (values ++ [redeem])) scriptPubKey = true := by
  have few := pushable.few
  rw [List.length_append, List.length_singleton] at few
  obtain ⟨after, run, stack⟩ := answers
  obtain ⟨hashed, compared, top⟩ := @answers_scriptHash ctx scriptPubKey values.reverse hash redeem parses
    (by rw [List.length_reverse]; omega)
  have pushed := evalScript_pushAll ctx pushable.sizes (pushable.few.trans (by decide)) pushable.limit
  rw [List.reverse_append, List.reverse_singleton, List.singleton_append] at pushed
  rw [verifyScript, pushed]
  dsimp only [EvalState.start]
  rw [compared]
  dsimp only
  rw [top, decide_eq_true same, Solver.isPayToScriptHash_iff.mpr ⟨hash, parses⟩, pushable.isPushOnly]
  dsimp only [verifyRedeem]
  rw [run, stack]
  rfl

end Run

end InfiniteRicks
