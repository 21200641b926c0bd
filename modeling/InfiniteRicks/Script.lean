import Mathlib.Data.BitVec

/-!
# Script bytes and signature-operation counts

`script.h` and `script.cpp` as far as block connection reads a script: the
opcode reader `CScript::GetOp2`, the two signature-operation counts, and the
pay-to-script-hash test. Execution of a script is not modelled here; it enters
later modules only through the verdict of `VerifySignature`.
-/

namespace InfiniteRicks

/-- `uint256`: hashes and chain-trust values, with wrap-around arithmetic. -/
abbrev UInt256 := BitVec 256

instance : Finite UInt256 := Finite.of_injective BitVec.toFin fun _ _ same => BitVec.toFin_inj.mp same

instance : LawfulBEq UInt256 := inferInstance

/-- Serialized data. -/
abbrev Bytes := List UInt8

/-- `CScript` is a byte vector. -/
abbrev CScript := List UInt8

namespace CScript

def opPushData1 : UInt8 := 0x4c
def opPushData2 : UInt8 := 0x4d
def opPushData4 : UInt8 := 0x4e
def op1 : UInt8 := 0x51
def op16 : UInt8 := 0x60
def opEqual : UInt8 := 0x87
def opHash160 : UInt8 := 0xa9
def opCheckSig : UInt8 := 0xac
def opCheckSigVerify : UInt8 := 0xad
def opCheckMultiSig : UInt8 := 0xae
def opCheckMultiSigVerify : UInt8 := 0xaf
def opInvalidOpcode : UInt8 := 0xff

/-- Little-endian value of the operand-length bytes, as `memcpy` reads them. -/
def littleEndian : List UInt8 → Nat
  | [] => 0
  | byte :: rest => byte.toNat + 256 * littleEndian rest

/-- Number of length bytes that follow a push opcode. -/
def pushWidth (opcode : UInt8) : Nat :=
  if opcode = opPushData1 then 1
  else if opcode = opPushData2 then 2
  else if opcode = opPushData4 then 4
  else 0

/-- `CScript::GetOp2` at the position whose remaining bytes are given: the
opcode, its immediate operand and the bytes after it. -/
def getOp : CScript → Option (UInt8 × List UInt8 × CScript)
  | [] => none
  | opcode :: pc =>
      if opcode ≤ opPushData4 then
        let width := pushWidth opcode
        if pc.length < width then none
        else
          let nSize := if width = 0 then opcode.toNat else littleEndian (pc.take width)
          let pc := pc.drop width
          if pc.length < nSize then none
          else some (opcode, pc.take nSize, pc.drop nSize)
      else some (opcode, [], pc)

/-- An instruction is a non-empty front of the script. -/
theorem length_of_getOp {pc next : CScript} {opcode : UInt8} {data : List UInt8}
    (instruction : getOp pc = some (opcode, data, next)) : next.length < pc.length := by
  cases pc with
  | nil => cases instruction
  | cons first pc =>
      simp only [getOp] at instruction
      by_cases push : first ≤ opPushData4
      · simp only [push, if_true] at instruction
        by_cases short : pc.length < pushWidth first
        · simp only [short, if_true] at instruction
          cases instruction
        simp only [short, if_false] at instruction
        generalize (if pushWidth first = 0 then first.toNat else littleEndian (pc.take (pushWidth first))) = nSize
          at instruction
        split at instruction
        · cases instruction
        · obtain ⟨-, -, rfl⟩ := by simpa only [Option.some.injEq, Prod.mk.injEq] using instruction
          simp only [List.length_drop, List.length_cons]
          omega
      · simp only [push, if_false, Option.some.injEq, Prod.mk.injEq] at instruction
        obtain ⟨-, -, rfl⟩ := instruction
        exact Nat.lt_succ_self _

/-- `CScript() << vch`. -/
def pushData (vch : List UInt8) : CScript :=
  if vch.length < 76 then UInt8.ofNat vch.length :: vch
  else if vch.length ≤ 0xff then 76 :: UInt8.ofNat vch.length :: vch
  else if vch.length ≤ 0xffff then
    77 :: UInt8.ofNat vch.length :: UInt8.ofNat (vch.length / 256) :: vch
  else
    78 :: UInt8.ofNat vch.length :: UInt8.ofNat (vch.length / 2 ^ 8) ::
      UInt8.ofNat (vch.length / 2 ^ 16) :: UInt8.ofNat (vch.length / 2 ^ 24) :: vch

/-- Signature operations of one opcode, given the opcode before it. -/
def sigOpsOf (fAccurate : Bool) (lastOpcode opcode : UInt8) : Nat :=
  if opcode = opCheckSig ∨ opcode = opCheckSigVerify then 1
  else if opcode = opCheckMultiSig ∨ opcode = opCheckMultiSigVerify then
    if fAccurate ∧ op1 ≤ lastOpcode ∧ lastOpcode ≤ op16 then
      lastOpcode.toNat - (op1.toNat - 1)
    else 20
  else 0

/-- The loop of `CScript::GetSigOpCount(bool)`. The fuel is the script length:
every read consumes at least the opcode byte, so it is never exhausted. -/
def sigOpLoop (fAccurate : Bool) : Nat → UInt8 → CScript → Nat
  | 0, _, _ => 0
  | fuel + 1, lastOpcode, pc =>
      match getOp pc with
      | none => 0
      | some (opcode, _, pc) =>
          sigOpsOf fAccurate lastOpcode opcode + sigOpLoop fAccurate fuel opcode pc

/-- `CScript::GetSigOpCount(bool fAccurate)`. -/
def getSigOpCount (fAccurate : Bool) (script : CScript) : Nat :=
  sigOpLoop fAccurate script.length opInvalidOpcode script

/-- `CScript::IsPayToScriptHash`. -/
def isPayToScriptHash (script : CScript) : Bool :=
  script.length = 23 && script[0]? = some opHash160 && script[1]? = some 0x14 &&
    script[22]? = some opEqual

/-- The operand of the last push of a push-only script; `none` where
`GetSigOpCount(const CScript&)` returns zero early. -/
def lastPush : Nat → List UInt8 → CScript → Option (List UInt8)
  | 0, data, _ => some data
  | _ + 1, data, [] => some data
  | fuel + 1, _, pc =>
      match getOp pc with
      | none => none
      | some (opcode, data, pc) => if op16 < opcode then none else lastPush fuel data pc

/-- `CScript::GetSigOpCount(const CScript& scriptSig)`. -/
def getSigOpCountFor (script scriptSig : CScript) : Nat :=
  if isPayToScriptHash script then
    match lastPush scriptSig.length [] scriptSig with
    | none => 0
    | some data => getSigOpCount true data
  else getSigOpCount true script

end CScript

end InfiniteRicks
