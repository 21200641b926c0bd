import InfiniteRicks.SolverSpec
import InfiniteRicks.Connect
import InfiniteRicks.InterpreterSpec

/-!
# The budget for signature checks

`GetSigOpCount` reads a script without running it, and `EvalScript` takes the number of
keys from the stack. The scan is still an upper bound: behind `OP_1` to `OP_16` the
stack has just that number on top, and everywhere else the scan counts the most there can
be. `ConnectBlock` adds the counts up, so its limit covers the checks of inputs that
spend a script hash.
-/

namespace InfiniteRicks

open Library.Hoare

/-- The calls of `CheckSig` in the three scripts that `VerifyScript` evaluates. -/
structure ScriptChecks where
  scriptSig : Nat
  scriptPubKey : Nat
  redeem : Nat
deriving DecidableEq

def ScriptChecks.total (checks : ScriptChecks) : Nat := checks.scriptSig + checks.scriptPubKey + checks.redeem

/-- What `VerifyScript` calls `CheckSig` for, up to where it returns. -/
def verifyScriptChecks (ctx : EvalContext) (scriptSig scriptPubKey : CScript) : ScriptChecks :=
  let sig := evalScript ctx [] scriptSig
  let pubKey := evalScript ctx sig.2.stack scriptPubKey
  if !sig.1 then ⟨sig.2.nCheckSigs, 0, 0⟩
  else if !pubKey.1 || !topIsTrue pubKey.2.stack then ⟨sig.2.nCheckSigs, pubKey.2.nCheckSigs, 0⟩
  else if scriptPubKey.isPayToScriptHash && scriptSig.isPushOnly then
    ⟨sig.2.nCheckSigs, pubKey.2.nCheckSigs, (verifyRedeem ctx sig.2.stack).2.nCheckSigs⟩
  else ⟨sig.2.nCheckSigs, pubKey.2.nCheckSigs, 0⟩

namespace CTransaction

/-- The calls of `CheckSig` under `VerifySignature`, where the output spent is a script hash. -/
def scriptHashChecks (crypto : Crypto) (env : Env) (txFrom txTo : CTransaction) (nIn : Nat) (nHashType : Int32) : Nat :=
  match txTo.vin[nIn]? with
  | none => 0
  | some txin =>
      match txFrom.vout[txin.prevout.n.toNat]? with
      | none => 0
      | some txout =>
          if txin.prevout.hash ≠ env.txHash txFrom then 0
          else if txout.scriptPubKey.isPayToScriptHash then
            (verifyScriptChecks ⟨crypto, txTo, nIn, nHashType⟩ txin.scriptSig txout.scriptPubKey).total
          else 0

/-- The calls of `CheckSig` for script hashes in the second loop of `ConnectInputs`, from input `i`. -/
def spendChecks (crypto : Crypto) (env : Env) (nBestHeight : Int) (tx : CTransaction) (posThisTx : CDiskTxPos)
    (fBlock : Bool) : Nat → List CTxIn → MapPrevTx → Nat
  | _, [], _ => 0
  | i, txin :: rest, inputs =>
      match inputs txin.prevout.hash with
      | none => 0
      | some (txindex, txPrev) =>
          match txindex.vSpent[txin.prevout.n.toNat]? with
          | none => 0
          | some spent =>
              if !spent.isNull then 0
              else
                let txindex : CTxIndex :=
                  { txindex with vSpent := txindex.vSpent.set txin.prevout.n.toNat posThisTx }
                let inputs := Function.update inputs txin.prevout.hash (some (txindex, txPrev))
                if fBlock && nBestHeight < getTotalBlocksEstimate env then
                  spendChecks crypto env nBestHeight tx posThisTx fBlock (i + 1) rest inputs
                else
                  scriptHashChecks crypto env txPrev tx i 0 +
                    if env.verifySignature txPrev tx i then
                      spendChecks crypto env nBestHeight tx posThisTx fBlock (i + 1) rest inputs
                    else 0

/-- The calls of `CheckSig` for script hashes in `ConnectInputs`. -/
def connectInputsChecks (crypto : Crypto) (env : Env) (nBestHeight : Int) (inputs : MapPrevTx) (posThisTx : CDiskTxPos)
    (pindexBlock : BlockPtr) (fBlock : Bool) (tx : CTransaction) : Nat :=
  if tx.isCoinBase then 0
  else
    match checkInputs env pindexBlock inputs tx tx.vin 0 with
    | none => 0
    | some _ => spendChecks crypto env nBestHeight tx posThisTx fBlock 0 tx.vin inputs

end CTransaction

namespace CBlock

/-- The calls of `CheckSig` for script hashes in one round of `ConnectBlock`. -/
def connectTxChecks (crypto : Crypto) (env : Env) (s : Node) (pindex : CBlockIndex) (pprev : BlockPtr)
    (acc : ConnectState) (tx : CTransaction) : Nat :=
  if ((s.txdb.readTxIndex (env.txHash tx)).any fun txindexOld => txindexOld.vSpent.any CDiskTxPos.isNull) then 0
  else
    let nSigOps := acc.nSigOps + tx.getLegacySigOpCount
    if maxBlockSigOps < nSigOps then 0
    else if tx.isCoinBase then 0
    else
      match tx.fetchInputs s s.txdb acc.mapQueuedChanges true false with
      | .error _ => 0
      | .ok mapInputs =>
          if maxBlockSigOps < nSigOps + tx.getP2SHSigOpCount mapInputs then 0
          else
            match tx.getValueIn mapInputs, tx.getValueOut with
            | some _, some _ =>
                tx.connectInputsChecks crypto env s.nBestHeight mapInputs (pindex.txPos acc.nTxPos)
                  (pindex :: pprev) true
            | _, _ => 0

/-- The calls of `CheckSig` for script hashes in the transaction loop, which stops where a transaction does not
connect. -/
def connectTxsChecks (crypto : Crypto) (env : Env) (s : Node) (pindex : CBlockIndex) (pprev : BlockPtr)
    (fJustCheck : Bool) : List CTransaction → ConnectState → Nat
  | [], _ => 0
  | tx :: rest, acc =>
      connectTxChecks crypto env s pindex pprev acc tx +
        match connectTx env s pindex pprev fJustCheck acc tx with
        | none => 0
        | some acc => connectTxsChecks crypto env s pindex pprev fJustCheck rest acc

/-- The calls of `CheckSig` for script hashes in `ConnectBlock`. -/
def connectBlockChecks (crypto : Crypto) (env : Env) (s : Node) (block : CBlock) (pindex : CBlockIndex)
    (pprev : BlockPtr) (fJustCheck : Bool) : Nat :=
  if !block.checkBlock env s.nAdjustedTime (!fJustCheck) (!fJustCheck) false then 0
  else
    connectTxsChecks crypto env s pindex pprev fJustCheck block.vtx
      ⟨∅, 0, 0, 0, 0, 0, block.firstTxPos pindex fJustCheck⟩

end CBlock

section Scan

open CScript

/-- Taking the number of keys from the opcode before it never counts more. -/
theorem sigOpsOf_accurate_le (lastOpcode opcode : UInt8) :
    CScript.sigOpsOf true lastOpcode opcode ≤ CScript.sigOpsOf false lastOpcode opcode := by
  unfold CScript.sigOpsOf
  by_cases single : opcode = opCheckSig ∨ opcode = opCheckSigVerify
  · rw [if_pos single, if_pos single]
  · rw [if_neg single, if_neg single]
    by_cases multi : opcode = opCheckMultiSig ∨ opcode = opCheckMultiSigVerify
    · have scanned : ¬ (false = true ∧ op1 ≤ lastOpcode ∧ lastOpcode ≤ op16) :=
        fun number => Bool.false_ne_true number.1
      rw [if_pos multi, if_pos multi, if_neg scanned]
      by_cases number : op1 ≤ lastOpcode ∧ lastOpcode ≤ op16
      · have small : lastOpcode.toNat ≤ 96 := UInt8.le_iff_toNat_le.mp number.2
        have sixteen : lastOpcode.toNat - (op1.toNat - 1) ≤ 96 - (op1.toNat - 1) := Nat.sub_le_sub_right small _
        rw [if_pos ⟨rfl, number⟩]
        exact sixteen.trans (by decide)
      · rw [if_neg fun accurate => number accurate.2]
    · rw [if_neg multi, if_neg multi]

theorem sigOpLoop_accurate_le (fuel : Nat) (lastOpcode : UInt8) (pc : CScript) :
    sigOpLoop true fuel lastOpcode pc ≤ sigOpLoop false fuel lastOpcode pc := by
  induction fuel generalizing lastOpcode pc with
  | zero => exact le_rfl
  | succ fuel ih =>
      rw [sigOpLoop, sigOpLoop]
      cases getOp pc with
      | none => exact le_rfl
      | some read => exact Nat.add_le_add (sigOpsOf_accurate_le lastOpcode read.1) (ih read.1 read.2.2)

theorem getSigOpCount_accurate_le (script : CScript) : getSigOpCount true script ≤ getSigOpCount false script :=
  sigOpLoop_accurate_le script.length opInvalidOpcode script

/-- The scan counts nothing in a script without checks. -/
theorem sigOpLoop_reads {fAccurate : Bool} {pc last : CScript} {ops : List Op} (reads : Reads pc ops last)
    (plain : ∀ op ∈ ops, ∀ lastOpcode, CScript.sigOpsOf fAccurate lastOpcode op.1 = 0) (ends : last = [])
    (fuel : Nat) (lastOpcode : UInt8) : sigOpLoop fAccurate fuel lastOpcode pc = 0 := by
  induction reads generalizing fuel lastOpcode with
  | nil pc =>
      subst ends
      cases fuel <;> rfl
  | @cons pc next last op ops first rest ih =>
      obtain ⟨own, others⟩ := List.forall_mem_cons.mp plain
      cases fuel with
      | zero => rfl
      | succ fuel =>
          rw [sigOpLoop, first]
          exact Nat.add_eq_zero_iff.mpr ⟨own lastOpcode, ih others ends fuel op.1⟩

/-- A script hash has no checks of its own. -/
theorem getSigOpCount_scriptHash {scriptPubKey : CScript} (p2sh : scriptPubKey.isPayToScriptHash = true) :
    getSigOpCount true scriptPubKey = 0 := by
  obtain ⟨hash, parses⟩ := Solver.isPayToScriptHash_iff.mp p2sh
  refine sigOpLoop_reads parses (fun op member lastOpcode => ?_) rfl _ _
  have plain : ∀ opcode : UInt8, (opcode = opHash160 ∨ opcode = 20 ∨ opcode = opEqual) →
      CScript.sigOpsOf true lastOpcode opcode = 0 := by
    rintro _ (rfl | rfl | rfl) <;> rfl
  simp only [List.mem_cons, List.not_mem_nil, or_false] at member
  rcases member with rfl | rfl | rfl
  · exact plain _ (.inl rfl)
  · exact plain _ (.inr (.inl rfl))
  · exact plain _ (.inr (.inr rfl))

end Scan

section Evaluation

open CScript

variable (ctx : EvalContext)

/-- What an opcode up to `OP_16` pushes. -/
def pushedBy (opcode : UInt8) (vchPushValue : Bytes) : Bytes :=
  if opcode ≤ opPushData4 then vchPushValue else CBigNum.getvch (opcode.toNat - 80)

/-- Above the pushes, the opcodes up to `OP_16` push their number: as a count it is read as that number, and as a
script it has no checks. -/
theorem ofByte_small : ∀ opcode : UInt8, opcode ≤ op16 → ¬ opcode ≤ opPushData4 →
    (Opcode.ofByte opcode = none ∧ ¬ op1 ≤ opcode ∨ Opcode.ofByte opcode = some (.opN (opcode.toNat - 80))) ∧
      keyCount [CBigNum.getvch (opcode.toNat - 80)] = opcode.toNat - 80 ∧
      getSigOpCount true (CBigNum.getvch (opcode.toNat - 80)) = 0 := by
  refine forall_opcode ?_
  decide +kernel

/-- Opcodes up to `OP_16` only push, and only where they are executed. -/
theorem evalStep_small (view : EvalState) {opcode : UInt8} (small : opcode ≤ op16) (vchPushValue : Bytes)
    (pc : CScript) :
    Triple (fun s => s = view) (evalStep ctx opcode vchPushValue pc)
      (fun _ s => s.vfExec = view.vfExec ∧
        (view.fExec = true → s.stack = pushedBy opcode vchPushValue :: view.stack)) fun _ _ => True := by
  have skip : ∀ {condition : Prop} [Decidable condition],
      Triple (fun s => s = view) (returnFalseIf condition) (fun _ s => s = view) fun _ _ => True :=
    fun {_} _ => .ite (fun _ => .throw fun _ _ => trivial) fun _ => .pure fun _ same => same
  refine skip.bind fun _ => ?_
  rw [countOpcode, if_neg (UInt8.not_lt.mpr small)]
  refine Triple.bind (.pure fun _ same => same) fun _ => skip.bind fun _ => ?_
  refine Triple.bind ?_ fun _ => .bindGet fun before =>
    .ite (fun _ => .throw fun _ _ => trivial) fun _ => .pure fun _ same => same
  refine Triple.get.bind fun before => ?_
  rintro s ⟨same, rfl⟩
  subst same
  have plain : (decide (opIf ≤ opcode) && decide (opcode ≤ opEndIf)) = false := by
    have above : ¬ opIf ≤ opcode := UInt8.not_le.mpr (UInt8.lt_of_le_of_lt small (by decide))
    rw [decide_eq_false above, Bool.false_and]
  cases fExec : before.fExec with
  | false =>
      simp only [plain, Bool.false_and, Bool.false_eq_true, if_false, Bool.or_self]
      exact ⟨rfl, fun exec => nomatch exec⟩
  | true =>
      by_cases pushes : opcode ≤ opPushData4
      · rw [pushedBy, if_pos pushes, if_pos (by rw [Bool.true_and, decide_eq_true pushes])]
        exact ⟨rfl, fun _ => rfl⟩
      · rw [pushedBy, if_neg pushes, if_neg (by rw [Bool.true_and, decide_eq_false pushes]; exact Bool.false_ne_true),
          Bool.true_or, if_pos rfl]
        rcases (ofByte_small opcode small pushes).1 with ⟨unknown, -⟩ | number
        · rw [unknown]
          trivial
        · rw [number]
          exact ⟨rfl, fun _ => rfl⟩

/-- Behind `OP_1` to `OP_16`, where they were executed, the stack has their number on top. -/
def KnownCount (lastOpcode : UInt8) (s : EvalState) : Prop :=
  op1 ≤ lastOpcode → lastOpcode ≤ op16 → s.fExec = true → keyCount s.stack = lastOpcode.toNat - (op1.toNat - 1)

theorem evalStep_known (view : EvalState) (opcode : UInt8) (vchPushValue : Bytes) (pc : CScript) :
    Triple (fun s => s = view) (evalStep ctx opcode vchPushValue pc) (fun _ => KnownCount opcode) fun _ _ => True := by
  by_cases number : op1 ≤ opcode ∧ opcode ≤ op16
  · refine (evalStep_small ctx view number.2 vchPushValue pc).conseq ?_
    rintro - s ⟨same, pushed⟩ - - exec
    have above : ¬ opcode ≤ opPushData4 := UInt8.not_le.mpr (UInt8.lt_of_lt_of_le (by decide) number.1)
    have before : view.fExec = true := by
      rw [← exec, EvalState.fExec, EvalState.fExec, same]
    rw [pushed before, pushedBy, if_neg above]
    exact (ofByte_small opcode number.2 above).2.1
  · intro s start
    cases evalStep ctx opcode vchPushValue pc s with
    | ok value after => exact fun low high => absurd ⟨low, high⟩ number
    | error exit after => trivial

/-- The opcodes that check signatures. -/
def Opcode.checks : List (Option Opcode) :=
  [some .opCheckSig, some .opCheckSigVerify, some .opCheckMultiSig, some .opCheckMultiSigVerify]

theorem mostChecks_other {op : Option Opcode} (other : op ∉ Opcode.checks) (stack : List Bytes) :
    Opcode.mostChecks stack op = 0 := by
  unfold Opcode.mostChecks
  split
  all_goals first | exact absurd (by decide) other | rfl

theorem ofByte_check : ∀ opcode : UInt8, Opcode.ofByte opcode ∈ Opcode.checks →
    (opcode = opCheckSig ∨ opcode = opCheckSigVerify) ∨
      (opcode = opCheckMultiSig ∨ opcode = opCheckMultiSigVerify) := by
  refine forall_opcode ?_
  decide +kernel

/-- One opcode makes no more checks than the scan counts for it. -/
theorem mostChecks_le {lastOpcode : UInt8} {s : EvalState} (known : KnownCount lastOpcode s) (opcode : UInt8) :
    s.mostChecks opcode ≤ CScript.sigOpsOf true lastOpcode opcode := by
  have multi : s.fExec = true → min (keyCount s.stack) 20 ≤
      if true = true ∧ op1 ≤ lastOpcode ∧ lastOpcode ≤ op16 then lastOpcode.toNat - (op1.toNat - 1) else 20 := by
    intro exec
    split_ifs with number
    · rw [known number.2.1 number.2.2 exec]
      exact Nat.min_le_left _ _
    · exact Nat.min_le_right _ _
  unfold EvalState.mostChecks EvalState.executes
  split_ifs with executed
  · by_cases checks : opcode = opCheckSig ∨ opcode = opCheckSigVerify
    · rw [CScript.sigOpsOf, if_pos checks]
      rcases checks with rfl | rfl <;> exact le_rfl
    · rw [CScript.sigOpsOf, if_neg checks]
      by_cases counted : opcode = opCheckMultiSig ∨ opcode = opCheckMultiSigVerify
      · have exec : s.fExec = true := by
          have above : ¬ opcode ≤ opEndIf := by rcases counted with rfl | rfl <;> decide
          simpa only [decide_eq_false above, Bool.and_false, Bool.or_false] using executed
        rw [if_pos counted]
        rcases counted with rfl | rfl <;> exact multi exec
      · rw [if_neg counted, mostChecks_other fun check => (ofByte_check opcode check).elim checks counted]
  · exact Nat.zero_le _

/-- Between two opcodes: what the scan knows of the stack, and the calls of `CheckSig` so far. -/
def Budget (lastOpcode : UInt8) (c : Nat) (s : EvalState) : Prop := KnownCount lastOpcode s ∧ s.nCheckSigs ≤ c

theorem evalStep_budget (lastOpcode : UInt8) (c : Nat) (opcode : UInt8) (vchPushValue : Bytes) (pc : CScript) :
    Triple (Budget lastOpcode c) (evalStep ctx opcode vchPushValue pc)
      (fun _ => Budget opcode (c + CScript.sigOpsOf true lastOpcode opcode))
      fun _ s => s.nCheckSigs ≤ c + CScript.sigOpsOf true lastOpcode opcode := by
  rintro s ⟨known, spent⟩
  have more : s.nCheckSigs + s.mostChecks opcode ≤ c + CScript.sigOpsOf true lastOpcode opcode :=
    Nat.add_le_add spent (mostChecks_le known opcode)
  have round := (evalStep_spends ctx s opcode vchPushValue pc).and (evalStep_known ctx s opcode vchPushValue pc)
  exact round.weaken (fun _ same => same) (fun _ after final => ⟨final.2, final.1.2.trans more⟩)
    (fun _ after exit => exit.1.trans more) s rfl

/-- From any point of a script, the rest of the run makes no more checks than the scan counts in the rest of the
script. -/
theorem evalLoop_budget (fuel : Nat) (lastOpcode : UInt8) (c : Nat) (pc : CScript) :
    Triple (Budget lastOpcode c) (evalLoop ctx fuel pc)
      (fun _ s => s.nCheckSigs ≤ c + sigOpLoop true fuel lastOpcode pc)
      fun _ s => s.nCheckSigs ≤ c + sigOpLoop true fuel lastOpcode pc := by
  induction fuel generalizing lastOpcode c pc with
  | zero =>
      cases pc with
      | nil => exact .pure fun _ start => start.2
      | cons first rest => exact .throw fun _ start => start.2
  | succ fuel ih =>
      cases pc with
      | nil => exact .pure fun _ start => start.2.trans (Nat.le_add_right _ _)
      | cons first rest =>
          unfold evalLoop sigOpLoop
          cases getOp (first :: rest) with
          | none => exact .throw fun _ start => start.2
          | some read =>
              obtain ⟨opcode, vchPushValue, next⟩ := read
              have later := ih opcode (c + CScript.sigOpsOf true lastOpcode opcode) next
              simp only [Nat.add_assoc] at later ⊢
              refine Triple.bind ?_ fun _ => later
              exact (evalStep_budget ctx lastOpcode c opcode vchPushValue next).weaken (fun _ start => start)
                (fun _ _ final => final) fun _ _ exit => exit.trans (by omega)

/-- No run of a script makes more checks than the accurate scan of the script counts. -/
theorem evalScript_budget (stack : List Bytes) (script : CScript) :
    (evalScript ctx stack script).2.nCheckSigs ≤ getSigOpCount true script := by
  have start : Budget opInvalidOpcode 0 (.start stack script) :=
    ⟨fun _ high => absurd high (by decide), le_rfl⟩
  have run := evalLoop_budget ctx script.length opInvalidOpcode 0 script (.start stack script) start
  rw [Nat.zero_add] at run
  unfold evalScript evalBody
  split_ifs with long
  · exact Nat.zero_le _
  · cases ends : evalLoop ctx script.length script (.start stack script) with
    | ok value after =>
        rw [ends] at run
        exact run
    | error exit after =>
        rw [ends] at run
        exact run

/-- The last push of `scriptSig`, as `GetSigOpCount` sees it, counts at least as much as what is on the stack. -/
def TopCounted (data : Bytes) (s : EvalState) : Prop :=
  s.vfExec = [] ∧ ∀ top ∈ s.stack.head?, getSigOpCount true top ≤ getSigOpCount true data

theorem evalStep_top {data : Bytes} {opcode : UInt8} (small : opcode ≤ op16) (vchPushValue : Bytes) (pc : CScript) :
    Triple (TopCounted data) (evalStep ctx opcode vchPushValue pc)
      (fun _ => TopCounted vchPushValue) fun _ _ => True := by
  rintro s ⟨executed, -⟩
  refine (evalStep_small ctx s small vchPushValue pc).weaken (fun _ same => same) ?_ (fun _ _ _ => trivial) s rfl
  rintro - after ⟨same, pushed⟩
  have exec : s.fExec = true := by
    rw [EvalState.fExec, executed]
    rfl
  refine ⟨same.trans executed, fun top member => ?_⟩
  rw [pushed exec] at member
  obtain rfl := Option.some.inj member
  rw [pushedBy]
  split_ifs with pushes
  · exact le_rfl
  · rw [(ofByte_small opcode small pushes).2.2]
    exact Nat.zero_le _

/-- Running a push-only script leaves on top what its last push counts for. -/
theorem evalLoop_top (fuel : Nat) {data : Bytes} {pc : CScript} (pushOnly : isPushOnlyLoop fuel pc = true) :
    ∃ last, lastPush fuel data pc = some last ∧
      Triple (TopCounted data) (evalLoop ctx fuel pc) (fun _ => TopCounted last) fun _ _ => True := by
  induction fuel generalizing data pc with
  | zero =>
      cases pc with
      | nil => exact ⟨data, rfl, .pure fun _ start => start⟩
      | cons first rest => cases pushOnly
  | succ fuel ih =>
      cases pc with
      | nil => exact ⟨data, rfl, .pure fun _ start => start⟩
      | cons first rest =>
          unfold isPushOnlyLoop at pushOnly
          unfold lastPush evalLoop
          cases instruction : getOp (first :: rest) with
          | none =>
              rw [instruction] at pushOnly
              cases pushOnly
          | some read =>
              obtain ⟨opcode, vchPushValue, next⟩ := read
              simp only [instruction, List.isEmpty_cons, Bool.false_eq_true, if_false] at pushOnly
              split_ifs at pushOnly with above
              obtain ⟨last, pushed, rest⟩ := @ih vchPushValue next pushOnly
              refine ⟨last, (if_neg above).trans pushed, ?_⟩
              exact (evalStep_top ctx (UInt8.not_lt.mp above) vchPushValue next).bind fun _ => rest

/-- The redeem script that `VerifyScript` takes from the stack has no more checks than the one `GetSigOpCount` reads. -/
theorem top_counted {scriptSig : CScript} (pushOnly : isPushOnly scriptSig = true)
    (ok : (evalScript ctx [] scriptSig).1 = true) {scriptPubKey : CScript}
    (p2sh : scriptPubKey.isPayToScriptHash = true) :
    ∀ top ∈ (evalScript ctx [] scriptSig).2.stack.head?,
      getSigOpCount true top ≤ getSigOpCountFor scriptPubKey scriptSig := by
  obtain ⟨last, pushed, run⟩ := @evalLoop_top ctx scriptSig.length [] scriptSig pushOnly
  have start : TopCounted [] (.start [] scriptSig) := ⟨rfl, fun _ member => nomatch member⟩
  have result := run (.start [] scriptSig) start
  rw [getSigOpCountFor, if_pos p2sh, pushed]
  unfold evalScript evalBody at ok ⊢
  by_cases long : 10000 < scriptSig.length
  · rw [if_pos long] at ok
    cases ok
  · rw [if_neg long] at ok ⊢
    cases ends : evalLoop ctx scriptSig.length scriptSig (.start [] scriptSig) with
    | error exit after =>
        rw [ends] at ok
        cases ok
    | ok value after =>
        rw [ends] at result
        exact result.2

theorem verifyRedeem_budget (stackCopy : List Bytes) {limit : Nat}
    (counted : ∀ top ∈ stackCopy.head?, getSigOpCount true top ≤ limit) :
    (verifyRedeem ctx stackCopy).2.nCheckSigs ≤ limit := by
  cases stackCopy with
  | nil => exact Nat.zero_le _
  | cons pubKey2 rest => exact (evalScript_budget ctx rest pubKey2).trans (counted pubKey2 rfl)

/-- The three scripts make no more checks than are counted for them: the input script by the scan of the input, the
redeem script by `GetSigOpCount(scriptSig)`. -/
theorem verifyScript_budget (scriptSig : CScript) {scriptPubKey : CScript}
    (p2sh : scriptPubKey.isPayToScriptHash = true) :
    (verifyScriptChecks ctx scriptSig scriptPubKey).scriptSig ≤ getSigOpCount true scriptSig ∧
      (verifyScriptChecks ctx scriptSig scriptPubKey).scriptPubKey = 0 ∧
      (verifyScriptChecks ctx scriptSig scriptPubKey).redeem ≤ getSigOpCountFor scriptPubKey scriptSig := by
  have own := evalScript_budget ctx [] scriptSig
  have none : (evalScript ctx (evalScript ctx [] scriptSig).2.stack scriptPubKey).2.nCheckSigs = 0 :=
    Nat.le_zero.mp ((evalScript_budget ctx _ scriptPubKey).trans (getSigOpCount_scriptHash p2sh).le)
  unfold verifyScriptChecks
  dsimp only
  split_ifs with failed rejected redeem
  · exact ⟨own, rfl, Nat.zero_le _⟩
  · exact ⟨own, none, Nat.zero_le _⟩
  · have ok : (evalScript ctx [] scriptSig).1 = true := by simpa using failed
    have pushOnly : isPushOnly scriptSig = true := (Bool.and_eq_true _ _ ▸ redeem).2
    exact ⟨own, none, verifyRedeem_budget ctx _ (top_counted ctx pushOnly ok p2sh)⟩
  · exact ⟨own, none, Nat.zero_le _⟩

end Evaluation

namespace CTransaction

variable (crypto : Crypto) (env : Env) {tx : CTransaction}

/-- What an input adds to the counts of its transaction where it spends a script hash. -/
def countedFor (inputs : MapPrevTx) (txin : CTxIn) : Nat :=
  CScript.getSigOpCount false txin.scriptSig +
    match getOutputFor inputs txin with
    | none => 0
    | some prevout =>
        if CScript.isPayToScriptHash prevout.scriptPubKey then
          CScript.getSigOpCountFor prevout.scriptPubKey txin.scriptSig
        else 0

theorem scriptHashChecks_le {inputs : MapPrevTx} {txindex : CTxIndex} {txPrev : CTransaction} {txin : CTxIn} {i : Nat}
    (here : tx.vin[i]? = some txin) (fetched : inputs txin.prevout.hash = some (txindex, txPrev)) (nHashType : Int32) :
    scriptHashChecks crypto env txPrev tx i nHashType ≤ countedFor inputs txin := by
  unfold scriptHashChecks countedFor getOutputFor
  rw [here, fetched]
  dsimp only
  cases txPrev.vout[txin.prevout.n.toNat]? with
  | none => exact Nat.zero_le _
  | some txout =>
      dsimp only
      by_cases other : txin.prevout.hash ≠ env.txHash txPrev
      · rw [if_pos other]
        exact Nat.zero_le _
      rw [if_neg other]
      by_cases p2sh : txout.scriptPubKey.isPayToScriptHash = true
      · rw [if_pos p2sh, if_pos p2sh]
        obtain ⟨own, none, redeem⟩ := verifyScript_budget ⟨crypto, tx, i, nHashType⟩ txin.scriptSig p2sh
        have wide := getSigOpCount_accurate_le txin.scriptSig
        unfold ScriptChecks.total
        omega
      · rw [if_neg p2sh]
        exact Nat.zero_le _

/-- Marking an output as spent leaves the outputs themselves as they are. -/
theorem getOutputFor_marked {inputs : MapPrevTx} {hash : UInt256} {txindex marked : CTxIndex} {txPrev : CTransaction}
    (fetched : inputs hash = some (txindex, txPrev)) :
    getOutputFor (Function.update inputs hash (some (marked, txPrev))) = getOutputFor inputs := by
  funext txin
  unfold getOutputFor
  by_cases same : txin.prevout.hash = hash
  · rw [same, Function.update_self, fetched]
  · rw [Function.update_of_ne same]

/-- The outputs that the rest of the inputs spend do not change while spent outputs are marked. -/
theorem spendChecks_le (nBestHeight : Int) (posThisTx : CDiskTxPos) (fBlock : Bool) {i : Nat} {vin : List CTxIn}
    (here : tx.vin.drop i = vin) (inputs : MapPrevTx) :
    spendChecks crypto env nBestHeight tx posThisTx fBlock i vin inputs ≤ (vin.map (countedFor inputs)).sum := by
  induction vin generalizing i inputs with
  | nil => exact le_rfl
  | cons txin rest ih =>
      have first : tx.vin[i]? = some txin := by
        rw [← List.head?_drop, here, List.head?_cons]
      have behind : tx.vin.drop (i + 1) = rest := by
        rw [← List.tail_drop, here, List.tail_cons]
      rw [List.map_cons, List.sum_cons, spendChecks]
      cases fetched : inputs txin.prevout.hash with
      | none => exact Nat.zero_le _
      | some prev =>
          obtain ⟨txindex, txPrev⟩ := prev
          dsimp only
          cases txindex.vSpent[txin.prevout.n.toNat]? with
          | none => exact Nat.zero_le _
          | some spent =>
              have own := scriptHashChecks_le crypto env first fetched 0
              have later := ih behind (Function.update inputs txin.prevout.hash (some ({ txindex with
                vSpent := txindex.vSpent.set txin.prevout.n.toNat posThisTx }, txPrev)))
              rw [show countedFor (Function.update inputs _ _) = countedFor inputs from
                funext fun txin => by rw [countedFor, getOutputFor_marked fetched, countedFor]] at later
              dsimp only
              split_ifs <;> omega

/-- The checks of a transaction are counted for it. -/
theorem connectInputsChecks_le (nBestHeight : Int) (inputs : MapPrevTx) (posThisTx : CDiskTxPos)
    (pindexBlock : BlockPtr) (fBlock : Bool) :
    tx.connectInputsChecks crypto env nBestHeight inputs posThisTx pindexBlock fBlock ≤
      tx.getLegacySigOpCount + tx.getP2SHSigOpCount inputs := by
  have counted : (tx.vin.map (countedFor inputs)).sum ≤ tx.getLegacySigOpCount +
      (tx.vin.map fun txin => match getOutputFor inputs txin with
        | none => 0
        | some prevout =>
            if CScript.isPayToScriptHash prevout.scriptPubKey then
              CScript.getSigOpCountFor prevout.scriptPubKey txin.scriptSig
            else 0).sum := by
    unfold countedFor
    rw [List.sum_map_add]
    exact Nat.add_le_add_right (Nat.le_add_right _ _) _
  unfold connectInputsChecks getP2SHSigOpCount
  by_cases base : tx.isCoinBase = true
  · rw [if_pos base]
    exact Nat.zero_le _
  · rw [if_neg base, if_neg base]
    cases checkInputs env pindexBlock inputs tx tx.vin 0 with
    | none => exact Nat.zero_le _
    | some nValueIn => exact (spendChecks_le crypto env nBestHeight posThisTx fBlock rfl inputs).trans counted

end CTransaction

namespace CBlock

variable (crypto : Crypto) (env : Env) (s : Node) (pindex : CBlockIndex) (pprev : BlockPtr)

/-- A transaction checks within what is left of the limit, and what it checks is counted when it connects. -/
theorem connectTxChecks_le (fJustCheck : Bool) (acc : ConnectState) (tx : CTransaction)
    (within : acc.nSigOps ≤ maxBlockSigOps) :
    acc.nSigOps + connectTxChecks crypto env s pindex pprev acc tx ≤ maxBlockSigOps ∧
      ∀ after, connectTx env s pindex pprev fJustCheck acc tx = some after →
        acc.nSigOps + connectTxChecks crypto env s pindex pprev acc tx ≤ after.nSigOps ∧
          after.nSigOps ≤ maxBlockSigOps := by
  unfold connectTxChecks connectTx
  dsimp only
  by_cases overwrites : ((s.txdb.readTxIndex (env.txHash tx)).any fun txindexOld =>
      txindexOld.vSpent.any CDiskTxPos.isNull) = true
  · rw [if_pos overwrites, if_pos overwrites]
    exact ⟨within, fun _ step => nomatch step⟩
  rw [if_neg overwrites, if_neg overwrites]
  by_cases many : maxBlockSigOps < acc.nSigOps + tx.getLegacySigOpCount
  · rw [if_pos many, if_pos many]
    exact ⟨within, fun _ step => nomatch step⟩
  rw [if_neg many, if_neg many]
  by_cases base : tx.isCoinBase = true
  · rw [if_pos base, if_pos base]
    refine ⟨within, fun after step => ?_⟩
    cases value : tx.getValueOut with
    | none =>
        rw [value] at step
        cases step
    | some nTxValueOut =>
        rw [value] at step
        obtain rfl := Option.some.inj step
        exact ⟨Nat.le_add_right _ _, Nat.le_of_not_lt many⟩
  rw [if_neg base, if_neg base]
  cases tx.fetchInputs s s.txdb acc.mapQueuedChanges true false with
  | error failure => exact ⟨within, fun _ step => nomatch step⟩
  | ok mapInputs =>
      dsimp only
      by_cases more : maxBlockSigOps < acc.nSigOps + tx.getLegacySigOpCount + tx.getP2SHSigOpCount mapInputs
      · rw [if_pos more, if_pos more]
        exact ⟨within, fun _ step => nomatch step⟩
      rw [if_neg more, if_neg more]
      cases tx.getValueIn mapInputs with
      | none => exact ⟨within, fun _ step => nomatch step⟩
      | some nTxValueIn =>
          cases tx.getValueOut with
          | none => exact ⟨within, fun _ step => nomatch step⟩
          | some nTxValueOut =>
              have checks := @CTransaction.connectInputsChecks_le crypto env tx s.nBestHeight mapInputs
                (pindex.txPos acc.nTxPos) (pindex :: pprev) true
              refine ⟨by dsimp only; omega, fun after step => ?_⟩
              dsimp only at step
              split at step
              · cases step
              · obtain rfl := Option.some.inj step
                dsimp only
                omega

/-- The checks of the transactions that are left stay within what is left of the limit. -/
theorem connectTxsChecks_le (fJustCheck : Bool) (vtx : List CTransaction) (acc : ConnectState)
    (within : acc.nSigOps ≤ maxBlockSigOps) :
    acc.nSigOps + connectTxsChecks crypto env s pindex pprev fJustCheck vtx acc ≤ maxBlockSigOps := by
  induction vtx generalizing acc with
  | nil => exact within
  | cons tx rest ih =>
      obtain ⟨first, counted⟩ := connectTxChecks_le crypto env s pindex pprev fJustCheck acc tx within
      rw [connectTxsChecks]
      cases connected : connectTx env s pindex pprev fJustCheck acc tx with
      | none => exact first
      | some after =>
          obtain ⟨more, limit⟩ := counted after connected
          have later := ih after limit
          dsimp only
          omega

theorem connectBlockChecks_le (block : CBlock) (fJustCheck : Bool) :
    connectBlockChecks crypto env s block pindex pprev fJustCheck ≤ maxBlockSigOps := by
  unfold connectBlockChecks
  split_ifs
  · exact Nat.zero_le _
  · have all := connectTxsChecks_le crypto env s pindex pprev fJustCheck block.vtx
      ⟨∅, 0, 0, 0, 0, 0, block.firstTxPos pindex fJustCheck⟩ (Nat.zero_le _)
    rwa [Nat.zero_add] at all

end CBlock

/-- Signature checks stay within the counts. A run of a script makes at most `GetSigOpCount(true)` of them, which is at
most `GetSigOpCount(false)`; the redeem script of a script hash makes at most `GetSigOpCount(scriptSig)`; and the
limit on a block covers what `ConnectBlock` checks for inputs that spend script hashes, in all three scripts. -/
theorem sigOpCount_bounds_checks :
    (∀ (ctx : EvalContext) (stack : List Bytes) (script : CScript),
      (evalScript ctx stack script).2.nCheckSigs ≤ CScript.getSigOpCount true script ∧
        CScript.getSigOpCount true script ≤ CScript.getSigOpCount false script) ∧
    (∀ (ctx : EvalContext) (scriptSig scriptPubKey : CScript), scriptPubKey.isPayToScriptHash = true →
      (verifyScriptChecks ctx scriptSig scriptPubKey).redeem ≤ CScript.getSigOpCountFor scriptPubKey scriptSig) ∧
    ∀ (crypto : Crypto) (env : Env) (s : Node) (block : CBlock) (pindex : CBlockIndex) (pprev : BlockPtr)
      (fJustCheck : Bool), block.connectBlockChecks crypto env s pindex pprev fJustCheck ≤ maxBlockSigOps :=
  ⟨fun ctx stack script => ⟨evalScript_budget ctx stack script, getSigOpCount_accurate_le script⟩,
    fun ctx scriptSig _ p2sh => (verifyScript_budget ctx scriptSig p2sh).2.2,
    fun crypto env s block pindex pprev fJustCheck =>
      CBlock.connectBlockChecks_le crypto env s pindex pprev block fJustCheck⟩

/-- A redeem script that asks for one signature, its hash, and an input that pays with it. -/
def sampleRedeem : CScript := CScript.pushData (2 :: List.replicate 32 1) ++ [CScript.opCheckSig]

def sampleScriptHash : CScript := CScript.opHash160 :: 20 :: (sampleRedeem.take 20 ++ [CScript.opEqual])

def samplePayment : CScript :=
  CScript.pushData [0x30, 6, 2, 1, 1, 2, 1, 1, 1] ++ CScript.pushData sampleRedeem

theorem sigOpCount_bounds_checks_sample :
    (verifyScriptChecks ⟨sampleCrypto, sampleTx, 0, 1⟩ samplePayment sampleScriptHash).redeem = 1 ∧
      (verifyScriptChecks ⟨sampleCrypto, sampleTx, 0, 1⟩ samplePayment sampleScriptHash).redeem ≤
        CScript.getSigOpCountFor sampleScriptHash samplePayment :=
  ⟨by decide +kernel, sigOpCount_bounds_checks.2.1 _ _ _ (by decide)⟩

end InfiniteRicks
