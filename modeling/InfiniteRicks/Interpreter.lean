import InfiniteRicks.CheckSig

/-!
# The script interpreter

`EvalScript` and `VerifyScript` (`script.cpp`). A script runs over a main and an
alternative stack, both listed from the top; `stacktop(-i)` is entry `i`. Every way to
leave a script early is an `Exit`, and the stacks at that point are kept, because
`CombineSignatures` goes on with them. Accesses to the stack are checked as `vector::at`
checks them, apart from the depth tests that the opcodes make themselves.
-/

namespace InfiniteRicks

namespace CBigNum

/-- `CBigNum::getint`, which stops at the limits of an `int`. -/
def getint (bn : Int) : Int :=
  if 0 ≤ bn then (if 0x7fffffff < bn then 0x7fffffff else bn)
  else if bn < -0x7fffffff then -0x80000000 else bn

end CBigNum

/-- `MAX_SCRIPT_ELEMENT_SIZE`. -/
def maxScriptElementSize : Nat := 520

/-- How a script is left before its end. -/
inductive Exit where
  /-- `return false` -/
  | returnFalse
  /-- An access outside a stack, which throws. -/
  | outOfRange
  /-- `CastToBigNum` throws for a number that is too long. -/
  | overflow
  /-- The fuel of the model is used up. -/
  | outOfFuel
deriving DecidableEq

/-- `stack` and `altstack`, from the top. -/
structure Stacks where
  stack : List Bytes
  altstack : List Bytes

/-- The variables of `EvalScript`. `vfExec` is listed from the back; `nCheckSigs`, which the source does
not have, counts the calls of `CheckSig`. -/
structure EvalState extends Stacks where
  vfExec : List Bool
  nOpCount : Nat
  pbegincodehash : CScript
  nCheckSigs : Nat

/-- Code that uses only the stacks. -/
abbrev StackM := EStateM Exit Stacks

/-- Code of `EvalScript`. -/
abbrev EvalM := EStateM Exit EvalState

/-- Stack code as code of `EvalScript`. -/
def onStacks {α : Type} (program : StackM α) : EvalM α := fun s =>
  match program s.toStacks with
  | .ok value after => .ok value { s with toStacks := after }
  | .error exit after => .error exit { s with toStacks := after }

/-- `if (condition) return false`. -/
def returnFalseIf {σ : Type} (condition : Prop) [Decidable condition] : EStateM Exit σ Unit :=
  if condition then throw .returnFalse else pure ()

def vchFalse : Bytes := []
def vchTrue : Bytes := [1]

/-- `CastToBool`: some byte is not zero, and it is not only the sign of a negative zero. -/
def castToBool : Bytes → Bool
  | [] => false
  | [last] => last ≠ 0 && last ≠ 0x80
  | byte :: rest => byte ≠ 0 || castToBool rest

/-- `CastToBigNum`. -/
def castToBigNum (vch : Bytes) : StackM Int :=
  if 4 < vch.length then throw .overflow else pure (CBigNum.setvch (CBigNum.getvch (CBigNum.setvch vch)))

/-- `if (stack.size() < n) return false`. -/
def need (n : Nat) : StackM Unit := do
  returnFalseIf ((← get).stack.length < n)

/-- `stacktop(-i)`. -/
def stacktop (i : Nat) : StackM Bytes := do
  match (← get).stack[i - 1]? with
  | some vch => pure vch
  | none => throw .outOfRange

/-- `popstack(stack)`. -/
def popstack : StackM Unit := do
  match (← get).stack with
  | [] => throw .outOfRange
  | _ :: rest => modify fun s => { s with stack := rest }

/-- `altstacktop(-i)`. -/
def altstacktop (i : Nat) : StackM Bytes := do
  match (← get).altstack[i - 1]? with
  | some vch => pure vch
  | none => throw .outOfRange

/-- `popstack(altstack)`. -/
def popaltstack : StackM Unit := do
  match (← get).altstack with
  | [] => throw .outOfRange
  | _ :: rest => modify fun s => { s with altstack := rest }

/-- `stack.push_back`. -/
def push (vch : Bytes) : StackM Unit := modify fun s => { s with stack := vch :: s.stack }

/-- `stack.erase(stack.end()-i)`. -/
def eraseAt (i : Nat) : StackM Unit := do
  if (← get).stack.length < i then throw .outOfRange
  else modify fun s => { s with stack := s.stack.eraseIdx (i - 1) }

/-- `stack.insert(stack.end()-i, vch)`. -/
def insertAt (i : Nat) (vch : Bytes) : StackM Unit := do
  if (← get).stack.length < i then throw .outOfRange
  else modify fun s => { s with stack := s.stack.take i ++ vch :: s.stack.drop i }

/-- `swap(stacktop(-i), stacktop(-j))`. -/
def swapAt (i j : Nat) : StackM Unit := do
  let vch1 ← stacktop i
  let vch2 ← stacktop j
  modify fun s => { s with stack := (s.stack.set (i - 1) vch2).set (j - 1) vch1 }

/-- Push a result, and drop it again where the opcode ends in `VERIFY`. -/
def pushVerdict (fSuccess verify : Bool) : StackM Unit := do
  push (if fSuccess then vchTrue else vchFalse)
  if verify then
    if fSuccess then popstack else throw .returnFalse

/-- The numeric opcodes with one operand. -/
inductive NumericOp1 where
  | op1Add
  | op1Sub
  | opNegate
  | opAbs
  | opNot
  | op0NotEqual
deriving DecidableEq

def NumericOp1.apply : NumericOp1 → Int → Int
  | .op1Add, bn => bn + 1
  | .op1Sub, bn => bn - 1
  | .opNegate, bn => -bn
  | .opAbs, bn => if bn < 0 then -bn else bn
  | .opNot, bn => if bn = 0 then 1 else 0
  | .op0NotEqual, bn => if bn ≠ 0 then 1 else 0

/-- The numeric opcodes with two operands. -/
inductive NumericOp2 where
  | opAdd
  | opSub
  | opBoolAnd
  | opBoolOr
  | opNumEqual
  | opNumEqualVerify
  | opNumNotEqual
  | opLessThan
  | opGreaterThan
  | opLessThanOrEqual
  | opGreaterThanOrEqual
  | opMin
  | opMax
deriving DecidableEq

def NumericOp2.apply : NumericOp2 → Int → Int → Int
  | .opAdd, bn1, bn2 => bn1 + bn2
  | .opSub, bn1, bn2 => bn1 - bn2
  | .opBoolAnd, bn1, bn2 => if bn1 ≠ 0 ∧ bn2 ≠ 0 then 1 else 0
  | .opBoolOr, bn1, bn2 => if bn1 ≠ 0 ∨ bn2 ≠ 0 then 1 else 0
  | .opNumEqual, bn1, bn2 => if bn1 = bn2 then 1 else 0
  | .opNumEqualVerify, bn1, bn2 => if bn1 = bn2 then 1 else 0
  | .opNumNotEqual, bn1, bn2 => if bn1 ≠ bn2 then 1 else 0
  | .opLessThan, bn1, bn2 => if bn1 < bn2 then 1 else 0
  | .opGreaterThan, bn1, bn2 => if bn1 > bn2 then 1 else 0
  | .opLessThanOrEqual, bn1, bn2 => if bn1 ≤ bn2 then 1 else 0
  | .opGreaterThanOrEqual, bn1, bn2 => if bn1 ≥ bn2 then 1 else 0
  | .opMin, bn1, bn2 => if bn1 < bn2 then bn1 else bn2
  | .opMax, bn1, bn2 => if bn1 > bn2 then bn1 else bn2

inductive HashOp where
  | opRipemd160
  | opSha1
  | opSha256
  | opHash160
  | opHash256
deriving DecidableEq

/-- The bytes of the hash, 20 or 32 of them. -/
def HashOp.apply (crypto : Crypto) : HashOp → Bytes → Bytes
  | .opRipemd160, vch => littleEndianBytes 20 (crypto.ripemd160 vch).toNat
  | .opSha1, vch => littleEndianBytes 20 (crypto.sha1 vch).toNat
  | .opSha256, vch => littleEndianBytes 32 (crypto.sha256 vch).toNat
  | .opHash160, vch => littleEndianBytes 20 (crypto.hash160 vch).toNat
  | .opHash256, vch => littleEndianBytes 32 (crypto.hash vch).toNat

/-- The opcodes that work on the stacks alone. -/
inductive StackOp where
  | opVerify
  | opReturn
  | opToAltStack
  | opFromAltStack
  | op2Drop
  | op2Dup
  | op3Dup
  | op2Over
  | op2Rot
  | op2Swap
  | opIfDup
  | opDepth
  | opDrop
  | opDup
  | opNip
  | opOver
  | opPick
  | opRoll
  | opRot
  | opSwap
  | opTuck
  | opSize
  | opEqual
  | opEqualVerify
  | numeric1 (op : NumericOp1)
  | numeric2 (op : NumericOp2)
  | opWithin
  | hash (op : HashOp)
deriving DecidableEq

namespace StackOp

def execVerify : StackM Unit := do
  need 1
  let fValue := castToBool (← stacktop 1)
  if fValue then popstack else throw .returnFalse

def execToAltStack : StackM Unit := do
  need 1
  let vch ← stacktop 1
  modify fun s => { s with altstack := vch :: s.altstack }
  popstack

def execFromAltStack : StackM Unit := do
  returnFalseIf ((← get).altstack.length < 1)
  let vch ← altstacktop 1
  push vch
  popaltstack

def exec2Drop : StackM Unit := do
  need 2
  popstack
  popstack

def exec2Dup : StackM Unit := do
  need 2
  let vch1 ← stacktop 2
  let vch2 ← stacktop 1
  push vch1
  push vch2

def exec3Dup : StackM Unit := do
  need 3
  let vch1 ← stacktop 3
  let vch2 ← stacktop 2
  let vch3 ← stacktop 1
  push vch1
  push vch2
  push vch3

def exec2Over : StackM Unit := do
  need 4
  let vch1 ← stacktop 4
  let vch2 ← stacktop 3
  push vch1
  push vch2

def exec2Rot : StackM Unit := do
  need 6
  let vch1 ← stacktop 6
  let vch2 ← stacktop 5
  eraseAt 6
  eraseAt 5
  push vch1
  push vch2

def exec2Swap : StackM Unit := do
  need 4
  swapAt 4 2
  swapAt 3 1

def execIfDup : StackM Unit := do
  need 1
  let vch ← stacktop 1
  if castToBool vch then push vch

def execDepth : StackM Unit := do
  push (CBigNum.getvch (← get).stack.length)

def execDrop : StackM Unit := do
  need 1
  popstack

def execDup : StackM Unit := do
  need 1
  let vch ← stacktop 1
  push vch

def execNip : StackM Unit := do
  need 2
  eraseAt 2

def execOver : StackM Unit := do
  need 2
  let vch ← stacktop 2
  push vch

/-- `OP_PICK` copies the element at depth `i`, and `OP_ROLL` moves it. -/
def pickFrom (roll : Bool) (i : Nat) : StackM Unit := do
  let vch ← stacktop i
  if roll then
    eraseAt i
    push vch
  else push vch

def execPick (roll : Bool) : StackM Unit := do
  need 2
  let n := CBigNum.getint (← castToBigNum (← stacktop 1))
  popstack
  returnFalseIf (n < 0 ∨ ((← get).stack.length : Int) ≤ n)
  pickFrom roll (n.toNat + 1)

def execRot : StackM Unit := do
  need 3
  swapAt 3 2
  swapAt 2 1

def execSwap : StackM Unit := do
  need 2
  swapAt 2 1

def execTuck : StackM Unit := do
  need 2
  let vch ← stacktop 1
  insertAt 2 vch

def execSize : StackM Unit := do
  need 1
  push (CBigNum.getvch (← stacktop 1).length)

/-- `OP_EQUAL` and `OP_EQUALVERIFY`. -/
def execEqual (verify : Bool) : StackM Unit := do
  need 2
  let fEqual := (← stacktop 2) = (← stacktop 1)
  popstack
  popstack
  pushVerdict fEqual verify

def execNumeric1 (op : NumericOp1) : StackM Unit := do
  need 1
  let bn ← castToBigNum (← stacktop 1)
  popstack
  push (CBigNum.getvch (op.apply bn))

def execNumeric2 (op : NumericOp2) : StackM Unit := do
  need 2
  let bn1 ← castToBigNum (← stacktop 2)
  let bn2 ← castToBigNum (← stacktop 1)
  popstack
  popstack
  push (CBigNum.getvch (op.apply bn1 bn2))
  if op = .opNumEqualVerify then
    if castToBool (← stacktop 1) then popstack else throw .returnFalse

def execWithin : StackM Unit := do
  need 3
  let bn1 ← castToBigNum (← stacktop 3)
  let bn2 ← castToBigNum (← stacktop 2)
  let bn3 ← castToBigNum (← stacktop 1)
  popstack
  popstack
  popstack
  push (if bn2 ≤ bn1 ∧ bn1 < bn3 then vchTrue else vchFalse)

def execHash (crypto : Crypto) (op : HashOp) : StackM Unit := do
  need 1
  let vch ← stacktop 1
  popstack
  push (op.apply crypto vch)

/-- The cases of the `switch` that use only the stacks. -/
def exec (crypto : Crypto) : StackOp → StackM Unit
  | .opVerify => execVerify
  | .opReturn => throw .returnFalse
  | .opToAltStack => execToAltStack
  | .opFromAltStack => execFromAltStack
  | .op2Drop => exec2Drop
  | .op2Dup => exec2Dup
  | .op3Dup => exec3Dup
  | .op2Over => exec2Over
  | .op2Rot => exec2Rot
  | .op2Swap => exec2Swap
  | .opIfDup => execIfDup
  | .opDepth => execDepth
  | .opDrop => execDrop
  | .opDup => execDup
  | .opNip => execNip
  | .opOver => execOver
  | .opPick => execPick false
  | .opRoll => execPick true
  | .opRot => execRot
  | .opSwap => execSwap
  | .opTuck => execTuck
  | .opSize => execSize
  | .opEqual => execEqual false
  | .opEqualVerify => execEqual true
  | .numeric1 op => execNumeric1 op
  | .numeric2 op => execNumeric2 op
  | .opWithin => execWithin
  | .hash op => execHash crypto op

end StackOp

/-- What the bytes of `opcodetype` that have a `case` mean. -/
inductive Opcode where
  /-- `OP_1NEGATE` and `OP_1` to `OP_16` -/
  | opN (n : Int)
  | opNop
  | opIf
  | opNotIf
  | opElse
  | opEndIf
  | stack (op : StackOp)
  | opCodeSeparator
  | opCheckSig
  | opCheckSigVerify
  | opCheckMultiSig
  | opCheckMultiSigVerify
deriving DecidableEq

/-- The cases of the `switch`; `none` is its `default`. -/
def Opcode.ofByte (opcode : UInt8) : Option Opcode :=
  match opcode.toNat with
  | 0x4f => some (.opN (-1))
  | 0x51 => some (.opN 1)
  | 0x52 => some (.opN 2)
  | 0x53 => some (.opN 3)
  | 0x54 => some (.opN 4)
  | 0x55 => some (.opN 5)
  | 0x56 => some (.opN 6)
  | 0x57 => some (.opN 7)
  | 0x58 => some (.opN 8)
  | 0x59 => some (.opN 9)
  | 0x5a => some (.opN 10)
  | 0x5b => some (.opN 11)
  | 0x5c => some (.opN 12)
  | 0x5d => some (.opN 13)
  | 0x5e => some (.opN 14)
  | 0x5f => some (.opN 15)
  | 0x60 => some (.opN 16)
  | 0x61 => some .opNop
  | 0x63 => some .opIf
  | 0x64 => some .opNotIf
  | 0x67 => some .opElse
  | 0x68 => some .opEndIf
  | 0x69 => some (.stack .opVerify)
  | 0x6a => some (.stack .opReturn)
  | 0x6b => some (.stack .opToAltStack)
  | 0x6c => some (.stack .opFromAltStack)
  | 0x6d => some (.stack .op2Drop)
  | 0x6e => some (.stack .op2Dup)
  | 0x6f => some (.stack .op3Dup)
  | 0x70 => some (.stack .op2Over)
  | 0x71 => some (.stack .op2Rot)
  | 0x72 => some (.stack .op2Swap)
  | 0x73 => some (.stack .opIfDup)
  | 0x74 => some (.stack .opDepth)
  | 0x75 => some (.stack .opDrop)
  | 0x76 => some (.stack .opDup)
  | 0x77 => some (.stack .opNip)
  | 0x78 => some (.stack .opOver)
  | 0x79 => some (.stack .opPick)
  | 0x7a => some (.stack .opRoll)
  | 0x7b => some (.stack .opRot)
  | 0x7c => some (.stack .opSwap)
  | 0x7d => some (.stack .opTuck)
  | 0x82 => some (.stack .opSize)
  | 0x87 => some (.stack .opEqual)
  | 0x88 => some (.stack .opEqualVerify)
  | 0x8b => some (.stack (.numeric1 .op1Add))
  | 0x8c => some (.stack (.numeric1 .op1Sub))
  | 0x8f => some (.stack (.numeric1 .opNegate))
  | 0x90 => some (.stack (.numeric1 .opAbs))
  | 0x91 => some (.stack (.numeric1 .opNot))
  | 0x92 => some (.stack (.numeric1 .op0NotEqual))
  | 0x93 => some (.stack (.numeric2 .opAdd))
  | 0x94 => some (.stack (.numeric2 .opSub))
  | 0x9a => some (.stack (.numeric2 .opBoolAnd))
  | 0x9b => some (.stack (.numeric2 .opBoolOr))
  | 0x9c => some (.stack (.numeric2 .opNumEqual))
  | 0x9d => some (.stack (.numeric2 .opNumEqualVerify))
  | 0x9e => some (.stack (.numeric2 .opNumNotEqual))
  | 0x9f => some (.stack (.numeric2 .opLessThan))
  | 0xa0 => some (.stack (.numeric2 .opGreaterThan))
  | 0xa1 => some (.stack (.numeric2 .opLessThanOrEqual))
  | 0xa2 => some (.stack (.numeric2 .opGreaterThanOrEqual))
  | 0xa3 => some (.stack (.numeric2 .opMin))
  | 0xa4 => some (.stack (.numeric2 .opMax))
  | 0xa5 => some (.stack .opWithin)
  | 0xa6 => some (.stack (.hash .opRipemd160))
  | 0xa7 => some (.stack (.hash .opSha1))
  | 0xa8 => some (.stack (.hash .opSha256))
  | 0xa9 => some (.stack (.hash .opHash160))
  | 0xaa => some (.stack (.hash .opHash256))
  | 0xab => some .opCodeSeparator
  | 0xac => some .opCheckSig
  | 0xad => some .opCheckSigVerify
  | 0xae => some .opCheckMultiSig
  | 0xaf => some .opCheckMultiSigVerify
  | 0xb0 | 0xb1 | 0xb2 | 0xb3 | 0xb4 | 0xb5 | 0xb6 | 0xb7 | 0xb8 | 0xb9 => some .opNop
  | _ => none

/-- The opcodes that fail a script even where they are not executed, from `OP_CAT` to `OP_RSHIFT`. -/
def isDisabled (opcode : UInt8) : Bool :=
  opcode ∈ [0x7e, 0x7f, 0x80, 0x81, 0x83, 0x84, 0x85, 0x86, 0x8d, 0x8e, 0x95, 0x96, 0x97, 0x98, (0x99 : UInt8)]

/-- `IsCanonicalPubKey`. -/
def isCanonicalPubKey (vchPubKey : Bytes) : Bool :=
  if vchPubKey.length < 33 then false
  else if vchPubKey.getD 0 0 = 0x04 then vchPubKey.length = 65
  else if vchPubKey.getD 0 0 = 0x02 ∨ vchPubKey.getD 0 0 = 0x03 then vchPubKey.length = 33
  else false

/-- `CompareBigEndian`: strip the longer one, then compare byte by byte. -/
def compareBigEndian : Bytes → Bytes → Int
  | [], [] => 0
  | first :: c1, [] => if first ≠ 0 then 1 else compareBigEndian c1 []
  | [], second :: c2 => if second ≠ 0 then -1 else compareBigEndian [] c2
  | first :: c1, second :: c2 =>
      if c2.length < c1.length then (if first ≠ 0 then 1 else compareBigEndian c1 (second :: c2))
      else if c1.length < c2.length then (if second ≠ 0 then -1 else compareBigEndian (first :: c1) c2)
      else if second < first then 1
      else if first < second then -1
      else compareBigEndian c1 c2
termination_by c1 c2 => c1.length + c2.length

/-- `vchMaxModHalfOrder`. -/
def vchMaxModHalfOrder : Bytes :=
  [0x7f, 0xff, 0xff, 0xff, 0xff, 0xff, 0xff, 0xff, 0xff, 0xff, 0xff, 0xff, 0xff, 0xff, 0xff, 0xff,
    0x5d, 0x57, 0x6e, 0x73, 0x57, 0xa4, 0x50, 0x1d, 0xdf, 0xe9, 0x2f, 0x46, 0x68, 0x1b, 0x20, 0xa0]

/-- `CKey::CheckSignatureElement` with `half` set. -/
def checkSignatureElement (vch : Bytes) : Bool :=
  compareBigEndian vch [] > 0 && compareBigEndian vch vchMaxModHalfOrder ≤ 0

/-- `IsCanonicalSignature`. -/
def isCanonicalSignature (vchSig : Bytes) : Bool :=
  if vchSig.length < 9 then false
  else if 73 < vchSig.length then false
  else
    let nHashType := vchSig.getD (vchSig.length - 1) 0 &&& 0x7f
    if nHashType < 1 ∨ 3 < nHashType then false
    else if vchSig.getD 0 0 ≠ 0x30 then false
    else if (vchSig.getD 1 0).toNat ≠ vchSig.length - 3 then false
    else
      let nLenR := (vchSig.getD 3 0).toNat
      if vchSig.length ≤ 5 + nLenR then false
      else
        let nLenS := (vchSig.getD (5 + nLenR) 0).toNat
        if nLenR + nLenS + 7 ≠ vchSig.length then false
        else if vchSig.getD 2 0 ≠ 0x02 then false
        else if nLenR = 0 then false
        else if vchSig.getD 4 0 &&& 0x80 ≠ 0 then false
        else if 1 < nLenR ∧ vchSig.getD 4 0 = 0x00 ∧ vchSig.getD 5 0 &&& 0x80 = 0 then false
        else if vchSig.getD (4 + nLenR) 0 ≠ 0x02 then false
        else if nLenS = 0 then false
        else if vchSig.getD (6 + nLenR) 0 &&& 0x80 ≠ 0 then false
        else if 1 < nLenS ∧ vchSig.getD (6 + nLenR) 0 = 0x00 ∧ vchSig.getD (7 + nLenR) 0 &&& 0x80 = 0 then false
        else checkSignatureElement ((vchSig.drop (6 + nLenR)).take nLenS)

namespace CScript

/-- `CScript::IsPushOnly`. -/
def isPushOnlyLoop : Nat → CScript → Bool
  | 0, pc => pc.isEmpty
  | fuel + 1, pc =>
      if pc.isEmpty then true
      else
        match getOp pc with
        | none => false
        | some (opcode, _, next) => if op16 < opcode then false else isPushOnlyLoop fuel next

def isPushOnly (script : CScript) : Bool := isPushOnlyLoop script.length script

end CScript

/-- What `EvalScript` is given besides the stack and the script. -/
structure EvalContext where
  crypto : Crypto
  txTo : CTransaction
  nIn : Nat
  nHashType : Int32

/-- `IsCanonicalSignature(vchSig) && IsCanonicalPubKey(vchPubKey) && CheckSig(...)`. -/
def checkCanonicalSig (ctx : EvalContext) (vchSig vchPubKey : Bytes) (scriptCode : CScript) : EvalM Bool := do
  if isCanonicalSignature vchSig && isCanonicalPubKey vchPubKey then
    modify fun s => { s with nCheckSigs := s.nCheckSigs + 1 }
    pure (checkSig ctx.crypto ⟨vchSig, vchPubKey, scriptCode, ctx.txTo, ctx.nIn, ctx.nHashType⟩)
  else pure false

/-- `OP_CHECKSIG` and `OP_CHECKSIGVERIFY`. -/
def execCheckSig (ctx : EvalContext) (verify : Bool) : EvalM Unit := do
  onStacks (need 2)
  let vchSig ← onStacks (stacktop 2)
  let vchPubKey ← onStacks (stacktop 1)
  let scriptCode := (← get).pbegincodehash.findAndDelete (CScript.pushData vchSig)
  let fSuccess ← checkCanonicalSig ctx vchSig vchPubKey scriptCode
  onStacks popstack
  onStacks popstack
  onStacks (pushVerdict fSuccess verify)

/-- Drop the signatures from the script code. -/
def dropSignatures (isig : Nat) : Nat → CScript → StackM CScript
  | 0, scriptCode => pure scriptCode
  | count + 1, scriptCode => do
      let vchSig ← stacktop isig
      dropSignatures (isig + 1) count (scriptCode.findAndDelete (CScript.pushData vchSig))

/-- The loop over signatures and keys, for `nKeysCount` keys from `ikey` and `nSigsCount` signatures from
`isig`. There are never more signatures than keys, so the keys are not used up first. -/
def multiSigLoop (ctx : EvalContext) (scriptCode : CScript) : Nat → Nat → Nat → Nat → EvalM Bool
  | _, 0, _, _ => pure true
  | 0, _ + 1, _, _ => throw .outOfFuel
  | nKeysCount + 1, nSigsCount + 1, ikey, isig => do
      let vchSig ← onStacks (stacktop isig)
      let vchPubKey ← onStacks (stacktop ikey)
      let fOk ← checkCanonicalSig ctx vchSig vchPubKey scriptCode
      let (nSigsCount, isig) := if fOk then (nSigsCount, isig + 1) else (nSigsCount + 1, isig)
      if nKeysCount < nSigsCount then pure false
      else multiSigLoop ctx scriptCode nKeysCount nSigsCount (ikey + 1) isig

/-- `while (i-- > 0) popstack(stack)`. -/
def popMany : Nat → StackM Unit
  | 0 => pure ()
  | count + 1 => do
      popstack
      popMany count

/-- `if ((int)stack.size() < i) return false; CastToBigNum(stacktop(-i)).getint()`. -/
def readCount (i : Nat) : StackM Int := do
  need i
  let bn ← castToBigNum (← stacktop i)
  pure (CBigNum.getint bn)

/-- `OP_CHECKMULTISIG` once both counts are read. -/
def checkMultiSig (ctx : EvalContext) (verify : Bool) (nKeysCount nSigsCount : Nat) : EvalM Unit := do
  onStacks (need (3 + nKeysCount + nSigsCount))
  let scriptCode ← onStacks (dropSignatures (3 + nKeysCount) nSigsCount (← get).pbegincodehash)
  let fSuccess ← multiSigLoop ctx scriptCode nKeysCount nSigsCount 2 (3 + nKeysCount)
  onStacks (popMany (3 + nKeysCount + nSigsCount))
  onStacks (pushVerdict fSuccess verify)

/-- `nOpCount += count; if (nOpCount > 201) return false`. -/
def addOpcodes (count : Nat) : EvalM Unit := do
  modify fun s => { s with nOpCount := s.nOpCount + count }
  returnFalseIf (201 < (← get).nOpCount)

/-- `OP_CHECKMULTISIG` once the count of keys is read. -/
def countKeys (ctx : EvalContext) (verify : Bool) (nKeysCount : Int) : EvalM Unit := do
  returnFalseIf (nKeysCount < 0 ∨ 20 < nKeysCount)
  addOpcodes nKeysCount.toNat
  let nSigsCount ← onStacks (readCount (2 + nKeysCount.toNat))
  returnFalseIf (nSigsCount < 0 ∨ nKeysCount < nSigsCount)
  checkMultiSig ctx verify nKeysCount.toNat nSigsCount.toNat

/-- `OP_CHECKMULTISIG` and `OP_CHECKMULTISIGVERIFY`. -/
def execCheckMultiSig (ctx : EvalContext) (verify : Bool) : EvalM Unit := do
  countKeys ctx verify (← onStacks (readCount 1))

/-- The condition of `OP_IF` or `OP_NOTIF`. -/
def popCondition (notIf : Bool) : StackM Bool := do
  need 1
  let vch ← stacktop 1
  popstack
  pure (castToBool vch != notIf)

/-- `OP_IF` and `OP_NOTIF`. -/
def execIf (fExec notIf : Bool) : EvalM Unit := do
  let fValue ← if fExec then onStacks (popCondition notIf) else pure false
  modify fun s => { s with vfExec := fValue :: s.vfExec }

def execElse : EvalM Unit := do
  match (← get).vfExec with
  | [] => throw .returnFalse
  | back :: rest => modify fun s => { s with vfExec := (!back) :: rest }

def execEndIf : EvalM Unit := do
  match (← get).vfExec with
  | [] => throw .returnFalse
  | _ :: rest => modify fun s => { s with vfExec := rest }

/-- The `switch`, with `pc` behind the opcode. -/
def execOpcode (ctx : EvalContext) (fExec : Bool) (pc : CScript) : Option Opcode → EvalM Unit
  | none => throw .returnFalse
  | some (.opN n) => onStacks (push (CBigNum.getvch n))
  | some .opNop => pure ()
  | some .opIf => execIf fExec false
  | some .opNotIf => execIf fExec true
  | some .opElse => execElse
  | some .opEndIf => execEndIf
  | some (.stack op) => onStacks (op.exec ctx.crypto)
  | some .opCodeSeparator => modify fun s => { s with pbegincodehash := pc }
  | some .opCheckSig => execCheckSig ctx false
  | some .opCheckSigVerify => execCheckSig ctx true
  | some .opCheckMultiSig => execCheckMultiSig ctx false
  | some .opCheckMultiSigVerify => execCheckMultiSig ctx true

/-- `!count(vfExec.begin(), vfExec.end(), false)`. -/
def EvalState.fExec (s : EvalState) : Bool := s.vfExec.all id

def opIf : UInt8 := 0x63
def opEndIf : UInt8 := 0x68

/-- The count of opcodes above `OP_16`. -/
def countOpcode (opcode : UInt8) : EvalM Unit := if CScript.op16 < opcode then addOpcodes 1 else pure ()

/-- Push the operand, execute the opcode or skip it. -/
def dispatch (ctx : EvalContext) (opcode : UInt8) (vchPushValue : Bytes) (pc : CScript) : EvalM Unit := do
  let fExec := (← get).fExec
  if fExec && opcode ≤ CScript.opPushData4 then onStacks (push vchPushValue)
  else if fExec || (opIf ≤ opcode && opcode ≤ opEndIf) then execOpcode ctx fExec pc (Opcode.ofByte opcode)

/-- One round of the loop, after the instruction has been read. -/
def evalStep (ctx : EvalContext) (opcode : UInt8) (vchPushValue : Bytes) (pc : CScript) : EvalM Unit := do
  returnFalseIf (maxScriptElementSize < vchPushValue.length)
  countOpcode opcode
  returnFalseIf (isDisabled opcode)
  dispatch ctx opcode vchPushValue pc
  let s ← get
  returnFalseIf (1000 < s.stack.length + s.altstack.length)

/-- The loop of `EvalScript`. The fuel is the length of the script: every instruction is at least a byte. -/
def evalLoop (ctx : EvalContext) : Nat → CScript → EvalM Unit
  | _, [] => pure ()
  | 0, _ :: _ => throw .outOfFuel
  | fuel + 1, pc =>
      match CScript.getOp pc with
      | none => throw .returnFalse
      | some (opcode, vchPushValue, next) => do
          evalStep ctx opcode vchPushValue next
          evalLoop ctx fuel next

/-- The variables at the start. -/
def EvalState.start (stack : List Bytes) (script : CScript) : EvalState := ⟨⟨stack, []⟩, [], 0, script, 0⟩

/-- `EvalScript` up to its last test. -/
def evalBody (ctx : EvalContext) (stack : List Bytes) (script : CScript) : EStateM.Result Exit EvalState Unit :=
  if 10000 < script.length then .error .returnFalse (.start stack script)
  else evalLoop ctx script.length script (.start stack script)

/-- `EvalScript`: its result and the variables at the end. -/
def evalScript (ctx : EvalContext) (stack : List Bytes) (script : CScript) : Bool × EvalState :=
  match evalBody ctx stack script with
  | .ok _ s => (s.vfExec.isEmpty, s)
  | .error _ s => (false, s)

/-- The top of a stack is true. -/
def topIsTrue : List Bytes → Bool
  | [] => false
  | top :: _ => castToBool top

/-- The part of `VerifyScript` for pay-to-script-hash: the last push is the script, and the stack below it
its arguments. -/
def verifyRedeem (ctx : EvalContext) (stackCopy : List Bytes) : Bool × EvalState :=
  match stackCopy with
  | [] => (false, .start [] [])
  | pubKey2 :: rest =>
      let (ok, s) := evalScript ctx rest pubKey2
      (ok && topIsTrue s.stack, s)

/-- `VerifyScript`. -/
def verifyScript (ctx : EvalContext) (scriptSig scriptPubKey : CScript) : Bool :=
  let (okSig, afterSig) := evalScript ctx [] scriptSig
  if !okSig then false
  else
    let (okPubKey, after) := evalScript ctx afterSig.stack scriptPubKey
    if !okPubKey then false
    else if !topIsTrue after.stack then false
    else if scriptPubKey.isPayToScriptHash then
      if !scriptSig.isPushOnly then false else (verifyRedeem ctx afterSig.stack).1
    else true

end InfiniteRicks
