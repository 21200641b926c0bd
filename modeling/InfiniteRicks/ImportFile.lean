import Mathlib.Logic.Relation
import InfiniteRicks.NetMessage
import InfiniteRicks.WalletCoins

/-!
# Importing a block file

`LoadExternalBlockFile` (`main.cpp`), which looks for the message start in a file of any length and hands
the block behind it to `ProcessBlock`. The position is an `unsigned int`, and an exception ends the whole
import. The file reads like a stream, for less than 4 GiB at a time; no shutdown is requested.
-/

namespace InfiniteRicks

/-- `pchMessageStart` of a network. -/
def messageStart (fTestNet : Bool) : Bytes := if fTestNet then [0x70, 0x6e, 0x7d, 0x0a] else pchMessageStart

/-- What one buffer shows: the end of the file, how far to go on, or how far it is to the end of a message start. -/
inductive ChunkSearch where
  | ended
  | moves (n : Nat)
  | finds (n : Nat)
deriving DecidableEq

/-- The body of the inner loop: `fread`, `memchr` and `memcmp`. -/
def searchChunk (start file : Bytes) (nPos : Nat) : ChunkSearch :=
  let pchData := (file.drop nPos).take 65536
  let nRead := pchData.length
  if nRead ≤ 8 then .ended
  else
    match (pchData.take (nRead + 1 - 4)).findIdx? fun byte => byte = start.headD 0 with
    | some nFind => if (pchData.drop nFind).take 4 = start then .finds (nFind + 4) else .moves (nFind + 1)
    | none => .moves (65536 - 4 + 1)

/-- One call of `ProcessBlock`: the position of the size in the file, the size, the block and the result. -/
structure ImportCall where
  nPos : UInt32
  nSize : UInt32
  block : CBlock
  accepted : Bool

/-- The variables of the import with the calls of `ProcessBlock` so far; `outer` where the condition of the outer
loop is next. -/
structure ImportState (σ : Type) where
  nPos : UInt32
  outer : Bool
  node : σ
  calls : List ImportCall

namespace ImportState

variable {σ : Type} (fTestNet : Bool) (process : σ → CBlock → Except σ σ) (file : Bytes)

/-- The import before its first round. -/
def initial (node : σ) : ImportState σ := ⟨0, true, node, []⟩

/-- `blkdat >> nSize`. -/
def readSizeAt (nPos : UInt32) : Option UInt32 :=
  let bytes := (file.drop nPos.toNat).take 4
  if bytes.length = 4 then some (UInt32.ofNat (CScript.littleEndian bytes)) else none

/-- `blkdat >> block`. -/
def readBlockAt (nPos : UInt32) : Option CBlock :=
  (CBlock.unserialize serDisk (CDataStream.ofBytes (file.drop (nPos.toNat + 4)))).map Prod.fst

/-- What follows in the outer loop when a message start ends at a position. There is no state after an
exception. -/
def examine (s : ImportState σ) (nPos : UInt32) : Option (ImportState σ) :=
  match readSizeAt file nPos with
  | none => none
  | some nSize =>
      if 0 < nSize ∧ nSize.toNat ≤ maxBlockSize then
        match readBlockAt file nPos with
        | none => none
        | some block =>
            match process s.node block with
            | .ok node => some ⟨nPos + (4 + nSize), true, node, s.calls ++ [⟨nPos, nSize, block, true⟩]⟩
            | .error node => some ⟨nPos, true, node, s.calls ++ [⟨nPos, nSize, block, false⟩]⟩
      else some { s with nPos := nPos, outer := true }

/-- One buffer, and what follows it. There is no state after the end of the loops. -/
def step (s : ImportState σ) : Option (ImportState σ) :=
  if s.outer = true ∧ s.nPos = 0xffffffff then none
  else
    match searchChunk (messageStart fTestNet) file s.nPos.toNat with
    | .ended => none
    | .moves n => some { s with nPos := s.nPos + UInt32.ofNat n, outer := false }
    | .finds n =>
        if s.nPos + UInt32.ofNat n = 0xffffffff then none
        else s.examine process file (s.nPos + UInt32.ofNat n)

/-- A state that the import comes to from another. -/
abbrev Reaches : ImportState σ → ImportState σ → Prop :=
  Relation.ReflTransGen fun s next => s.step fTestNet process file = some next

/-- `LoadExternalBlockFile` ends in a state. -/
def EndsIn (s final : ImportState σ) : Prop :=
  Reaches fTestNet process file s final ∧ final.step fTestNet process file = none

end ImportState

end InfiniteRicks
