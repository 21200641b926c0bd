import InfiniteRicks.Interpreter

/-!
# Script templates

`Solver` without a key store (`script.cpp`): which of the standard forms a script has, and the
keys, hashes and small numbers in it. The templates are scripts themselves, with opcodes that
stand for what may be there.
-/

namespace InfiniteRicks

/-- `txnouttype`. -/
inductive TxnOutType where
  | nonstandard
  | pubKey
  | pubKeyHash
  | scriptHash
  | multisig
  | nullData
deriving DecidableEq

namespace Solver

def opSmallInteger : UInt8 := 0xfa
def opPubKeys : UInt8 := 0xfb
def opPubKeyHash : UInt8 := 0xfd
def opPubKey : UInt8 := 0xfe
def opReturn : UInt8 := 0x6a
def opDup : UInt8 := 0x76
def opEqualVerify : UInt8 := 0x88

/-- `mTemplates`, in the order of their types. -/
def mTemplates : List (TxnOutType × CScript) :=
  [(.pubKey, [opPubKey, CScript.opCheckSig]),
    (.pubKeyHash, [opDup, CScript.opHash160, opPubKeyHash, opEqualVerify, CScript.opCheckSig]),
    (.multisig, [opSmallInteger, opPubKeys, opSmallInteger, CScript.opCheckMultiSig]),
    (.nullData, [opReturn])]

/-- `CScript::DecodeOP_N`. -/
def decodeOpN (opcode : UInt8) : UInt8 := if opcode = 0 then 0 else opcode - (CScript.op1 - 1)

/-- The inner loop for `OP_PUBKEYS`, with the last instruction that has been read. One that cannot be
read is `OP_INVALIDOPCODE`, which fits nothing. -/
def pushKeys : Nat → UInt8 × Bytes × CScript → List Bytes → (UInt8 × Bytes × CScript) × List Bytes
  | 0, last, vSolutions => (last, vSolutions)
  | fuel + 1, (opcode1, vch1, pc1), vSolutions =>
      if 33 ≤ vch1.length ∧ vch1.length ≤ 120 then
        match CScript.getOp pc1 with
        | none => ((CScript.opInvalidOpcode, [], pc1), vSolutions ++ [vch1])
        | some next => pushKeys fuel next (vSolutions ++ [vch1])
      else ((opcode1, vch1, pc1), vSolutions)

/-- An instruction against an instruction of a template. -/
def matchOp (opcode1 : UInt8) (vch1 : Bytes) (opcode2 : UInt8) (vch2 : Bytes) (vSolutions : List Bytes) :
    Option (List Bytes) :=
  if opcode2 = opPubKey then
    if vch1.length < 33 ∨ 120 < vch1.length then none else some (vSolutions ++ [vch1])
  else if opcode2 = opPubKeyHash then
    if vch1.length ≠ 20 then none else some (vSolutions ++ [vch1])
  else if opcode2 = opSmallInteger then
    if opcode1 = 0 ∨ (CScript.op1 ≤ opcode1 ∧ opcode1 ≤ CScript.op16) then
      some (vSolutions ++ [[decodeOpN opcode1]])
    else none
  else if opcode1 ≠ opcode2 ∨ vch1 ≠ vch2 then none
  else some vSolutions

/-- A script against a template. Each round reads an instruction of the template, whose length is
the fuel. -/
def matchTemplate : Nat → CScript → CScript → List Bytes → Option (List Bytes)
  | _, [], [], vSolutions => some vSolutions
  | 0, _, _, _ => none
  | fuel + 1, pc1, pc2, vSolutions =>
      match CScript.getOp pc1, CScript.getOp pc2 with
      | some first, some (opcode2, vch2, pc2) =>
          if opcode2 = opPubKeys then
            let ((opcode1, vch1, pc1), vSolutions) := pushKeys (pc1.length + 1) first vSolutions
            match CScript.getOp pc2 with
            | none => none
            | some (opcode2, vch2, pc2) =>
                (matchOp opcode1 vch1 opcode2 vch2 vSolutions).bind (matchTemplate fuel pc1 pc2)
          else (matchOp first.1 first.2.1 opcode2 vch2 vSolutions).bind (matchTemplate fuel first.2.2 pc2)
      | _, _ => none

/-- The additional checks for `TX_MULTISIG`. -/
def multisigFits (vSolutions : List Bytes) : Bool :=
  let m := ((vSolutions.head?.getD []).head?.getD 0).toNat
  let n := ((vSolutions.getLast?.getD []).head?.getD 0).toNat
  decide (1 ≤ m ∧ 1 ≤ n ∧ m ≤ n ∧ vSolutions.length = n + 2)

end Solver

open Solver in
/-- `Solver`: what it returns, `typeRet` and `vSolutionsRet`. -/
def solver (scriptPubKey : CScript) : Bool × TxnOutType × List Bytes :=
  if scriptPubKey.isPayToScriptHash then (true, .scriptHash, [(scriptPubKey.drop 2).take 20])
  else
    let found := mTemplates.findSome? fun tplate =>
      (matchTemplate tplate.2.length scriptPubKey tplate.2 []).map (tplate.1, ·)
    match found with
    | none => (false, .nonstandard, [])
    | some (typeRet, vSolutions) =>
        (decide (typeRet ≠ .multisig) || multisigFits vSolutions, typeRet, vSolutions)

end InfiniteRicks
