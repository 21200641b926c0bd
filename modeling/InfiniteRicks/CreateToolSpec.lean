import InfiniteRicks.CreateTool
import InfiniteRicks.Library.SortedMap
import InfiniteRicks.TxToolsSpec
import InfiniteRicks.WalletDumpSpec
import InfiniteRicks.WalletRecordSpec

/-!
# What the commands of the transaction tool do

The commands of the tool's help with `-create`. Every command has a collection of its own, and the
transaction is made from one collection or another: with an input or an output, what `nversion=` and
`nlocktime=` have set is left behind, an address that is named again takes the place of its first
output, and the `sign` of the help is passed over, since only `sign=` is looked for.
-/

namespace InfiniteRicks

open Library Library.Codec CDataStream TxTool

/-! ## Hexadecimal text -/

theorem phexdigit_hexmap (c : UInt8) :
    isSpace (WalletDump.hexmap (c >>> 4)) = false ∧ phexdigit (WalletDump.hexmap (c >>> 4)) = some (c >>> 4) ∧
      phexdigit (WalletDump.hexmap (c &&& 15)) = some (c &&& 15) ∧ c >>> 4 <<< 4 ||| c &&& 15 = c := by
  have space : ∀ {c : UInt8}, c.toNat < 16 → isSpace (WalletDump.hexmap c) = false :=
    @WalletDump.forall_hexmap (fun c => isSpace (WalletDump.hexmap c) = false) (by decide)
  have digit : ∀ {c : UInt8}, c.toNat < 16 → phexdigit (WalletDump.hexmap c) = some c :=
    @WalletDump.forall_hexmap (fun c => phexdigit (WalletDump.hexmap c) = some c) (by decide)
  exact ⟨space (WalletDump.shiftRight_four_lt c), digit (WalletDump.shiftRight_four_lt c),
    digit (WalletDump.and_fifteen_lt c), WalletDump.halves c⟩

/-- What `HexStr` writes is read back. -/
theorem parseHex_hexStr (bytes : Bytes) : parseHex (WalletDump.hexStr bytes) = bytes := by
  induction bytes with
  | nil => rfl
  | cons c rest ih =>
      obtain ⟨shown, high, low, joined⟩ := phexdigit_hexmap c
      have shape : WalletDump.hexStr (c :: rest) =
          WalletDump.hexmap (c >>> 4) :: WalletDump.hexmap (c &&& 15) :: WalletDump.hexStr rest := rfl
      rw [shape, parseHex, shown]
      simp only [Bool.false_eq_true, if_false, high, low, joined, ih]

theorem not_mem_of_isHex {str : Bytes} (hex : isHex str = true) {c : UInt8} (other : phexdigit c = none) : c ∉ str := by
  intro member
  have digits := List.all_eq_true.mp (Bool.and_eq_true_iff.mp hex).1 c member
  rw [other] at digits
  cases digits

/-- A numeral is read as the number it shows. -/
theorem atoi_i64tostr (n : Int32) : atoi (i64tostr n.toInt64) = n := by
  rw [atoi, atoi64_i64tostr, Int32.toInt32_toInt64]

/-! ## Raw transactions -/

/-- A transaction that fits is decoded again. -/
theorem decodeHexTx_encodeHexTx {tx : CTransaction} (fits : tx.Fits) (small : tx.serialize.length < 2 ^ 32) :
    decodeHexTx (encodeHexTx tx) = some tx := by
  have shape : source.remaining (ofBytes tx.serialize) = tx.serialize ++ [] := by
    rw [List.append_nil]
    rfl
  have room : tx.serialize.length ≤ source.room (ofBytes tx.serialize) := by
    change _ ≤ 2 ^ 32 - 1 - 0
    omega
  obtain ⟨after, read, -⟩ := CTransaction.unserialize_lawful.reads fits shape room
  rw [decodeHexTx, encodeHexTx, parseHex_hexStr, read]
  rfl

/-- A vector with too many elements is not read. -/
theorem readVector_none {α : Type} (read : Reader CDataStream α) {count : Nat} {s : CDataStream} {rest : Bytes}
    (large : maxSize < count) (range : count < 2 ^ 64) (shape : source.remaining s = writeCompactSize count ++ rest)
    (room : 9 ≤ source.room s) : readVector read s = none := by
  have short : (writeCompactSize count).length ≤ source.room s := by
    refine le_trans ?_ room
    rw [length_writeCompactSize, getSizeOfCompactSize]
    split_ifs <;> omega
  obtain ⟨after, size, -⟩ := readSize_lawful.reads range shape short
  have refused : readCompactSize s = none := by
    rw [readCompactSize]
    refine Option.bind_eq_none_iff.mpr fun found read => ?_
    cases size.symm.trans read
    simp only [large, if_true]
    rfl
  rw [readVector]
  exact Option.bind_eq_none_iff.mpr fun found read => by rw [refused] at read; cases read

theorem length_writeVector_le {α : Type} {write : α → Bytes} {v : List α} {size : Nat}
    (each : ∀ value ∈ v, (write value).length ≤ size) : (writeVector write v).length ≤ 9 + v.length * size := by
  have sum : (v.map fun value => (write value).length).sum ≤ v.length * size := by
    induction v with
    | nil => exact Nat.zero_le _
    | cons value rest ih =>
        obtain ⟨first, others⟩ := List.forall_mem_cons.mp each
        have more := ih others
        rw [List.map_cons, List.sum_cons, List.length_cons, Nat.succ_mul]
        omega
  have count : getSizeOfCompactSize v.length ≤ 9 := by
    rw [getSizeOfCompactSize]
    split_ifs <;> omega
  rw [length_writeVector]
  omega

theorem length_serialize_unsigned {txin : CTxIn} (empty : txin.scriptSig = []) : txin.serialize.length = 41 := by
  rw [CTxIn.length_serialize, empty]
  rfl

/-- A transaction with too many inputs or outputs is not read. -/
theorem CTransaction.unserialize_none {tx : CTransaction} {s : CDataStream} (inputs : tx.vin.length < 2 ^ 31)
    (outputs : tx.vout.length < 2 ^ 31) (empty : ∀ txin ∈ tx.vin, txin.scriptSig = [])
    (large : maxSize < tx.vin.length ∨ maxSize < tx.vout.length) (start : source.remaining s = tx.serialize)
    (room : source.room s = 2 ^ 32 - 1) : CTransaction.unserialize s = none := by
  have sizes : ∀ value : UInt32, (writeUInt32 value).length = 4 := fun value => length_littleEndianBytes _ _
  have version : (writeInt32 tx.nVersion).length = 4 := length_littleEndianBytes _ _
  obtain ⟨s1, read1, rest1, room1⟩ := readInt32_lawful.reads trivial start (by omega)
  obtain ⟨s2, read2, rest2, room2⟩ := readUInt32_lawful.reads trivial rest1 (by rw [sizes]; omega)
  rw [sizes] at room2
  cases shape : CTransaction.unserialize s with
  | none => rfl
  | some result =>
      exfalso
      rw [CTransaction.unserialize] at shape
      obtain ⟨first, found1, shape⟩ := Option.bind_eq_some_iff.mp shape
      cases read1.symm.trans found1
      obtain ⟨second, found2, shape⟩ := Option.bind_eq_some_iff.mp shape
      cases read2.symm.trans found2
      obtain ⟨third, found3, shape⟩ := Option.bind_eq_some_iff.mp shape
      by_cases many : maxSize < tx.vin.length
      · rw [writeVector, List.append_assoc] at rest2
        have refused := readVector_none CTxIn.unserialize many (by omega) rest2 (by omega)
        rw [refused] at found3
        cases found3
      · have few : tx.vin.length ≤ 2 ^ 25 := Nat.le_of_not_lt many
        have length := length_writeVector_le fun txin present => (length_serialize_unsigned (empty txin present)).le
        have fits : tx.vin.length ≤ maxSize ∧ ∀ txin ∈ tx.vin, txin.Fits :=
          ⟨few, fun txin present => by rw [CTxIn.Fits, empty txin present]; exact Nat.zero_le _⟩
        obtain ⟨s3, read3, rest3, room3⟩ :=
          (readVector_lawful CTxIn.unserialize_lawful).reads fits rest2 (by omega)
        cases read3.symm.trans found3
        obtain ⟨fourth, found4, -⟩ := Option.bind_eq_some_iff.mp shape
        rw [writeVector, List.append_assoc] at rest3
        have refused := readVector_none CTxOut.unserialize (large.resolve_left many) (by omega) rest3 (by omega)
        rw [refused] at found4
        cases found4

/-- What becomes of a transaction that is written as text and read again. -/
theorem decodeHexTx_eq {tx : CTransaction} (inputs : tx.vin.length < 2 ^ 31) (outputs : tx.vout.length < 2 ^ 31)
    (empty : ∀ txin ∈ tx.vin, txin.scriptSig = []) (short : ∀ txout ∈ tx.vout, txout.scriptPubKey.length ≤ 25) :
    decodeHexTx (encodeHexTx tx) = if tx.vin.length ≤ maxSize ∧ tx.vout.length ≤ maxSize then some tx else none := by
  split
  · rename_i few
    have each : ∀ txout ∈ tx.vout, txout.serialize.length ≤ 34 := by
      intro txout present
      have length := short txout present
      rw [CTxOut.length_serialize, bytesSize, getSizeOfCompactSize, if_pos (by omega)]
      omega
    have vin := length_writeVector_le fun txin present => (length_serialize_unsigned (empty txin present)).le
    have vout := length_writeVector_le each
    rw [show maxSize = 2 ^ 25 from rfl] at few
    refine decodeHexTx_encodeHexTx ⟨⟨few.1, fun txin present => ?_⟩, few.2, fun txout present => ?_⟩ ?_
    · rw [CTxIn.Fits, empty txin present]
      exact Nat.zero_le _
    · have length := short txout present
      rw [CTxOut.Fits, show maxSize = 2 ^ 25 from rfl]
      omega
    · simp only [CTransaction.serialize, writeInt32, writeUInt32, List.length_append, length_littleEndianBytes]
      omega
  · rename_i many
    have large : maxSize < tx.vin.length ∨ maxSize < tx.vout.length := by omega
    have unread := CTransaction.unserialize_none inputs outputs empty large (s := ofBytes tx.serialize) rfl rfl
    rw [decodeHexTx, encodeHexTx, parseHex_hexStr, unread]
    rfl

namespace TxToolEnv

variable {env : TxToolEnv}

/-- The outputs of a map whose addresses and amounts are good: all of them are made where no address is another
again. -/
theorem rawOutputs_eq_some_iff {outputs : List (Bytes × env.Double)}
    (good : ∀ output ∈ outputs, CBitcoinAddress.isValid false (env.addressOf output.1) = true ∧
      moneyRange (env.toAmount output.2) = true) (setAddress : List CBase58Data) (vout result : List CTxOut) :
    env.rawOutputs outputs setAddress vout = some result ↔
      (outputs.map fun output => env.addressOf output.1).Nodup ∧
        (∀ output ∈ outputs, env.addressOf output.1 ∉ setAddress) ∧ result = vout ++ outputs.map env.txOutOf := by
  induction outputs generalizing setAddress vout with
  | nil => simp [rawOutputs, eq_comm]
  | cons output rest ih =>
      obtain ⟨⟨valid, amount⟩, others⟩ := List.forall_mem_cons.mp good
      rw [rawOutputs]
      simp only [valid, amount, Bool.true_eq_false, if_false]
      split
      · rename_i known
        exact iff_of_false (fun h => by cases h) fun h => h.2.1 output List.mem_cons_self known
      · rename_i new
        rw [ih others, List.map_cons, List.map_cons, List.nodup_cons, List.forall_mem_cons, List.append_assoc,
          List.singleton_append]
        have apart : (∀ other ∈ rest, env.addressOf other.1 ∉ env.addressOf output.1 :: setAddress) ↔
            env.addressOf output.1 ∉ (rest.map fun other => env.addressOf other.1) ∧
              ∀ other ∈ rest, env.addressOf other.1 ∉ setAddress := by
          simp only [List.mem_cons, not_or, forall_and, List.mem_map, not_exists, not_and]
        rw [apart]
        tauto

end TxToolEnv

/-! ## Commands -/

/-- The commands of `HelpMessage`, with the texts that stand for their parameters. -/
inductive Command where
  | input (txid vout : Bytes)
  | outaddr (amount address : Bytes)
  | nversion (num : Bytes)
  | nlocktime (num : Bytes)
  | delin (n : Bytes)
  | delout (n : Bytes)
  | signprevtxin (txid vout scriptPubKey : Bytes)
  | key (wif : Bytes)
  | sighash (type : Bytes)
  | sign
deriving DecidableEq

namespace Command

/-- The argument for a command. -/
def argument : Command → Bytes
  | input txid vout => inName ++ 61 :: (txid ++ 58 :: vout)
  | outaddr amount address => outaddrName ++ 61 :: (amount ++ 58 :: address)
  | nversion num => nversionName ++ 61 :: num
  | nlocktime num => nlocktimeName ++ 61 :: num
  | delin n => delinName ++ 61 :: n
  | delout n => deloutName ++ 61 :: n
  | signprevtxin txid vout scriptPubKey => signprevtxinName ++ 61 :: (txid ++ 58 :: (vout ++ 58 :: scriptPubKey))
  | key wif => keyName ++ 61 :: wif
  | sighash type => sighashName ++ 61 :: type
  | sign => signName

/-- The parameters of a command are of their kinds: hexadecimal text, an address and an amount that can be paid, a
secret, a type of the list. -/
def WellFormed (env : TxToolEnv) : Command → Prop
  | input txid vout => isHex txid = true ∧ 58 ∉ vout
  | outaddr amount address =>
      58 ∉ amount ∧ 58 ∉ address ∧ CBitcoinAddress.isValid false (env.addressOf address) = true ∧
        moneyRange (env.toAmount (env.atof amount)) = true
  | signprevtxin txid vout scriptPubKey => isHex txid = true ∧ 58 ∉ vout ∧ isHex scriptPubKey = true
  | key wif => (CBitcoinSecret.setString env.crypto.hash false wif).1 = true
  | sighash type => (parseSighash type).isSome = true
  | _ => True

instance (env : TxToolEnv) : (command : Command) → Decidable (command.WellFormed env)
  | input _ _ => inferInstanceAs (Decidable (_ ∧ _))
  | outaddr _ _ => inferInstanceAs (Decidable (_ ∧ _ ∧ _ ∧ _))
  | signprevtxin _ _ _ => inferInstanceAs (Decidable (_ ∧ _ ∧ _))
  | key _ => inferInstanceAs (Decidable (_ = true))
  | sighash _ => inferInstanceAs (Decidable (_ = true))
  | nversion _ | nlocktime _ | delin _ | delout _ | sign => inferInstanceAs (Decidable True)

/-- The commands that take something away. -/
def deletes : Command → Bool
  | delin _ | delout _ => true
  | _ => false

/-- The input that a command names. -/
def input? : Command → Option COutPoint
  | input txid vout => some ⟨UInt256.setHex txid, (atoi vout).toUInt32⟩
  | _ => none

/-- The output that a command names: its address and its amount. -/
def output? (env : TxToolEnv) : Command → Option (Bytes × env.Double)
  | outaddr amount address => some (address, env.atof amount)
  | _ => none

def version? : Command → Option Int32
  | nversion num => some (atoi num)
  | _ => none

def lockTime? : Command → Option UInt32
  | nlocktime num => some (atoi num).toUInt32
  | _ => none

/-- The previous output that a command registers. -/
def prevOut? : Command → Option (COutPoint × CScript)
  | signprevtxin txid vout scriptPubKey =>
      some (⟨UInt256.setHex txid, (atoi vout).toUInt32⟩, parseHex scriptPubKey)
  | _ => none

def key? : Command → Option Bytes
  | key wif => some wif
  | _ => none

def hashType? : Command → Option Int32
  | sighash type => parseSighash type
  | _ => none

/-- What a command that does not delete changes in the collections. -/
def apply {env : TxToolEnv} (s : ToolState env) : Command → ToolState env
  | input txid vout => { s with inputs := s.inputs ++ [⟨UInt256.setHex txid, (atoi vout).toUInt32⟩] }
  | outaddr amount address => { s with outputs := s.outputs.insert address (env.atof amount) }
  | nversion num => s.setVariant fun tx => { tx with nVersion := atoi num }
  | nlocktime num => s.setVariant fun tx => { tx with nLockTime := (atoi num).toUInt32 }
  | signprevtxin txid vout scriptPubKey =>
      { s with mapPrevOut :=
          Function.update s.mapPrevOut ⟨UInt256.setHex txid, (atoi vout).toUInt32⟩ (some (parseHex scriptPubKey)) }
  | key wif => { s with keys := s.keys ++ [wif] }
  | sighash type => { s with nHashType := (parseSighash type).getD s.nHashType }
  | delin _ | delout _ | sign => s

end Command

namespace ToolState

variable {env : TxToolEnv}

/-- An argument with a name and a value is an assignment. -/
theorem argument_assignment (s : ToolState env) {name : Bytes} (value : Bytes) (plain : (61 : UInt8) ∉ name)
    (start : name.head? ≠ some 45) : s.argument (name ++ 61 :: value) = s.assign name value := by
  have first : (name ++ 61 :: value).head? ≠ some 45 := by
    cases name with
    | nil => exact fun h => absurd (Option.some.inj h) (by decide)
    | cons c rest => exact start
  have before : ∀ c ∈ name, decide (c ≠ 61) = true := fun c member => decide_eq_true fun same => plain (same ▸ member)
  rw [argument, if_neg first, if_pos (List.mem_append_right _ List.mem_cons_self),
    List.takeWhile_append_of_pos before, List.dropWhile_append_of_pos before, List.takeWhile_cons_of_neg (by simp),
    List.dropWhile_cons_of_neg (by simp), List.append_nil]
  rfl

theorem parts_pair {first second : Bytes} (left : 58 ∉ first) (right : 58 ∉ second) :
    parts (first ++ 58 :: second) = [first, second] := by
  rw [parts, List.splitOn_append_cons_self_of_not_mem left, List.splitOn_eq_singleton right]

/-- What the tool makes of one of the commands of its help. -/
theorem argument_command {command : Command} (wellFormed : command.WellFormed env) (s : ToolState env) :
    s.argument command.argument = if command.deletes then none else some (command.apply s) := by
  cases command with
  | input txid vout =>
      obtain ⟨hex, number⟩ := wellFormed
      rw [Command.argument, argument_assignment s _ (by decide) (by decide), assign, if_pos rfl, parseIn,
        parts_pair (not_mem_of_isHex hex (by decide)) number]
      simp only [parseHash, hex, if_true]
      rfl
  | outaddr amount address =>
      obtain ⟨left, right, -⟩ := wellFormed
      rw [Command.argument, argument_assignment s _ (by decide) (by decide), assign, if_neg (by decide), if_pos rfl,
        parseOutAddr, parts_pair left right]
      rfl
  | nversion num =>
      rw [Command.argument, argument_assignment s _ (by decide) (by decide)]
      rfl
  | nlocktime num =>
      rw [Command.argument, argument_assignment s _ (by decide) (by decide)]
      rfl
  | delin n =>
      rw [Command.argument, argument_assignment s _ (by decide) (by decide)]
      rfl
  | delout n =>
      rw [Command.argument, argument_assignment s _ (by decide) (by decide)]
      rfl
  | signprevtxin txid vout scriptPubKey =>
      obtain ⟨hex, number, script⟩ := wellFormed
      rw [Command.argument, argument_assignment s _ (by decide) (by decide), assign, if_neg (by decide),
        if_neg (by decide), if_pos rfl, parseSignPrevTxIn, parts,
        List.splitOn_append_cons_self_of_not_mem (not_mem_of_isHex hex (by decide)),
        List.splitOn_append_cons_self_of_not_mem number,
        List.splitOn_eq_singleton (not_mem_of_isHex script (by decide))]
      simp only [parseHash, hex, script, if_true]
      rfl
  | key wif =>
      rw [Command.argument, argument_assignment s _ (by decide) (by decide)]
      rfl
  | sighash type =>
      obtain ⟨nHashType, known⟩ := Option.isSome_iff_exists.mp wellFormed
      rw [Command.argument, argument_assignment s _ (by decide) (by decide), assign, if_neg (by decide),
        if_neg (by decide), if_neg (by decide), if_neg (by decide), if_pos rfl, Command.apply, known]
      rfl
  | sign => rfl

/-- What the tool makes of a list of commands. -/
theorem foldlM_commands {commands : List Command} (wellFormed : ∀ command ∈ commands, command.WellFormed env)
    (s : ToolState env) :
    (commands.map Command.argument).foldlM argument s =
      if commands.any Command.deletes then none else some (commands.foldl Command.apply s) := by
  induction commands generalizing s with
  | nil => rfl
  | cons command rest ih =>
      obtain ⟨first, others⟩ := List.forall_mem_cons.mp wellFormed
      rw [List.map_cons, List.foldlM_cons, argument_command first, List.any_cons]
      cases command.deletes with
      | true => rfl
      | false => exact ih others _

end ToolState

/-! ## What the commands say -/

/-- The inputs of the `in=` commands. -/
def namedInputs (commands : List Command) : List COutPoint := commands.filterMap Command.input?

/-- The addresses and amounts of the `outaddr=` commands. -/
def namedOutputs (env : TxToolEnv) (commands : List Command) : List (Bytes × env.Double) :=
  commands.filterMap (Command.output? env)

/-- `nVersion` as the last `nversion=` sets it. -/
def lastVersion (commands : List Command) : Int32 := (commands.filterMap Command.version?).getLast?.getD 1

/-- `nLockTime` as the last `nlocktime=` sets it. -/
def lastLockTime (commands : List Command) : UInt32 := (commands.filterMap Command.lockTime?).getLast?.getD 0

def register (mapPrevOut : PrevOuts) (prev : COutPoint × CScript) : PrevOuts :=
  Function.update mapPrevOut prev.1 (some prev.2)

/-- The scripts that the `signprevtxin=` commands register. -/
def namedPrevOuts (commands : List Command) : PrevOuts :=
  (commands.filterMap Command.prevOut?).foldl register fun _ => none

/-- The keys of the `key=` commands. -/
def namedKeys (commands : List Command) : List Bytes := commands.filterMap Command.key?

/-- The type of the last `sighash=`. -/
def lastHashType (commands : List Command) : Int32 :=
  (commands.filterMap Command.hashType?).getLast?.getD sighashAll

/-- What the tool has collected after some commands. The transaction that `nversion=` and `nlocktime=` made is the
one they say, but they alone. -/
structure Collected {env : TxToolEnv} (commands : List Command) (s : ToolState env) : Prop where
  sign : s.fSign = false
  variant : ∃ nTime, s.txVariants.head?.getD (CTransaction.new env.nTimeNew) =
    ⟨lastVersion commands, nTime, [], [], lastLockTime commands⟩
  inputs : s.inputs = namedInputs commands
  outputs : s.outputs = SortedMap.filled compare (namedOutputs env commands)
  mapPrevOut : s.mapPrevOut = namedPrevOuts commands
  keys : s.keys = namedKeys commands
  nHashType : s.nHashType = lastHashType commands

section Collect

variable {env : TxToolEnv}

theorem collected_init : Collected [] (ToolState.init : ToolState env) :=
  ⟨rfl, ⟨env.nTimeNew, rfl⟩, rfl, rfl, rfl, rfl, rfl⟩

theorem filterMap_concat {α β : Type} (f : α → Option β) (items : List α) (item : α) :
    (items ++ [item]).filterMap f = items.filterMap f ++ (f item).toList := by
  rw [List.filterMap_append, List.filterMap_cons]
  cases f item <;> rfl

/-- The last of a command's values takes the place of those before it. -/
theorem getLast_concat {α : Type} (values : List α) (value : Option α) (default : α) :
    (values ++ value.toList).getLast?.getD default = value.getD (values.getLast?.getD default) := by
  cases value with
  | none => rw [Option.toList_none, List.append_nil, Option.getD_none]
  | some value => rw [Option.toList_some, List.getLast?_concat, Option.getD_some, Option.getD_some]

/-- A variant that is made where it is missing says what has been said so far. -/
theorem setVariant_head {s : ToolState env} {nVersion : Int32} {nLockTime : UInt32} {nTime : UInt32}
    (variant : s.txVariants.head?.getD (CTransaction.new env.nTimeNew) = ⟨nVersion, nTime, [], [], nLockTime⟩)
    (assign : CTransaction → CTransaction) :
    ∃ nTime, (s.setVariant assign).txVariants.head?.getD (CTransaction.new env.nTimeNew) =
      assign ⟨nVersion, nTime, [], [], nLockTime⟩ := by
  rw [ToolState.setVariant]
  cases shape : s.txVariants with
  | nil =>
      rw [shape] at variant
      cases variant
      exact ⟨env.nTimeVariant, rfl⟩
  | cons tx rest =>
      rw [shape] at variant
      exact ⟨nTime, congrArg assign variant⟩

theorem apply_variant {s : ToolState env} {nVersion : Int32} {nLockTime nTime : UInt32}
    (variant : s.txVariants.head?.getD (CTransaction.new env.nTimeNew) = ⟨nVersion, nTime, [], [], nLockTime⟩)
    (command : Command) :
    ∃ nTime, (command.apply s).txVariants.head?.getD (CTransaction.new env.nTimeNew) =
      ⟨command.version?.getD nVersion, nTime, [], [], command.lockTime?.getD nLockTime⟩ := by
  cases command with
  | nversion num => exact setVariant_head variant fun tx => { tx with nVersion := atoi num }
  | nlocktime num => exact setVariant_head variant fun tx => { tx with nLockTime := (atoi num).toUInt32 }
  | _ => exact ⟨nTime, variant⟩

theorem apply_inputs (s : ToolState env) (command : Command) :
    (command.apply s).inputs = s.inputs ++ command.input?.toList := by
  cases command <;> simp [Command.apply, Command.input?, ToolState.setVariant]

theorem apply_outputs (s : ToolState env) (command : Command) : (command.apply s).outputs =
    (command.output? env).toList.foldl (fun outputs output => outputs.insert output.1 output.2) s.outputs := by
  cases command <;> rfl

theorem apply_mapPrevOut (s : ToolState env) (command : Command) :
    (command.apply s).mapPrevOut = command.prevOut?.toList.foldl register s.mapPrevOut := by
  cases command <;> rfl

theorem apply_keys (s : ToolState env) (command : Command) :
    (command.apply s).keys = s.keys ++ command.key?.toList := by
  cases command <;> simp [Command.apply, Command.key?, ToolState.setVariant]

theorem apply_nHashType (s : ToolState env) (command : Command) :
    (command.apply s).nHashType = command.hashType?.getD s.nHashType := by
  cases command <;> rfl

theorem apply_fSign (s : ToolState env) (command : Command) : (command.apply s).fSign = s.fSign := by
  cases command <;> rfl

theorem Collected.step {commands : List Command} {s : ToolState env} (collected : Collected commands s)
    (command : Command) : Collected (commands ++ [command]) (command.apply s) := by
  obtain ⟨sign, ⟨nTime, variant⟩, inputs, outputs, mapPrevOut, keys, nHashType⟩ := collected
  constructor
  · rw [apply_fSign, sign]
  · rw [lastVersion, lastLockTime, filterMap_concat, filterMap_concat, getLast_concat, getLast_concat]
    exact apply_variant variant command
  · rw [apply_inputs, inputs, namedInputs, namedInputs, filterMap_concat]
  · rw [apply_outputs, outputs, namedOutputs, namedOutputs, filterMap_concat, SortedMap.filled, SortedMap.filled,
      List.foldl_append]
  · rw [apply_mapPrevOut, mapPrevOut, namedPrevOuts, namedPrevOuts, filterMap_concat, List.foldl_append]
  · rw [apply_keys, keys, namedKeys, namedKeys, filterMap_concat]
  · rw [apply_nHashType, nHashType, lastHashType, lastHashType, filterMap_concat, getLast_concat]

/-- What the tool has collected in the end. -/
theorem collected_foldl (commands : List Command) :
    Collected commands (commands.foldl Command.apply (ToolState.init : ToolState env)) := by
  induction commands using List.reverseRecOn with
  | nil => exact collected_init
  | append_singleton commands command ih =>
      rw [List.foldl_append]
      exact ih.step command

end Collect

/-- A transaction is what the commands describe, before it is signed. -/
structure Describes (env : TxToolEnv) (commands : List Command) (tx : CTransaction) : Prop where
  vin : tx.vin = (namedInputs commands).map fun input => ⟨input, [], 0xffffffff⟩
  /-- One output for every `outaddr=`, in some order. -/
  vout : tx.vout.Perm ((namedOutputs env commands).map env.txOutOf)
  nVersion : tx.nVersion = lastVersion commands
  nLockTime : tx.nLockTime = lastLockTime commands

/-- The result is the transaction that the commands describe, signed where they say `sign` and give keys. -/
def AppliesEvery (env : TxToolEnv) (commands : List Command) (result : Option CTransaction) : Prop :=
  ∃ unsigned tx, result = some tx ∧ Describes env commands unsigned ∧
    if Command.sign ∈ commands ∧ namedKeys commands ≠ [] then
      ∃ fComplete, signTxWithKeys env.crypto false unsigned (namedPrevOuts commands) (namedKeys commands)
        (lastHashType commands) env.signer = some (tx, fComplete)
    else tx = unsigned

/-- The transaction of the commands with its outputs in the order of their addresses. -/
def inOrder (env : TxToolEnv) (commands : List Command) : CTransaction where
  nVersion := lastVersion commands
  nTime := env.nTimeNew
  vin := (namedInputs commands).map fun input => ⟨input, [], 0xffffffff⟩
  vout := (SortedMap.filled compare (namedOutputs env commands)).toList.map env.txOutOf
  nLockTime := lastLockTime commands

/-- When the tool applies every command. -/
structure AppliesWhen (env : TxToolEnv) (commands : List Command) : Prop where
  keeps : ∀ command ∈ commands, command.deletes = false
  /-- No address is named twice. -/
  distinct : ((namedOutputs env commands).map fun output => env.addressOf output.1).Nodup
  /-- With an input or an output, the version and the lock time are those of a new transaction. -/
  numbers : namedInputs commands = [] ∧ namedOutputs env commands = [] ∨
    lastVersion commands = 1 ∧ lastLockTime commands = 0
  sizes : (namedInputs commands).length ≤ maxSize ∧ (namedOutputs env commands).length ≤ maxSize
  /-- Signing would change nothing. -/
  unsigned : Command.sign ∈ commands → namedKeys commands ≠ [] →
    ∃ fComplete, signTxWithKeys env.crypto false (inOrder env commands) (namedPrevOuts commands) (namedKeys commands)
      (lastHashType commands) env.signer = some (inOrder env commands, fComplete)

section Create

variable {env : TxToolEnv} {commands : List Command}

theorem createTool_deletes (wellFormed : ∀ command ∈ commands, command.WellFormed env)
    (deletes : commands.any Command.deletes = true) : createTool env (commands.map Command.argument) = none := by
  rw [createTool, ToolState.foldlM_commands wellFormed, if_pos deletes]
  rfl

/-- The tool never signs: it makes a transaction of what it has collected. -/
theorem createTool_eq (wellFormed : ∀ command ∈ commands, command.WellFormed env)
    (keeps : commands.any Command.deletes = false) : ∃ s : ToolState env, Collected commands s ∧
      createTool env (commands.map Command.argument) = s.assemble := by
  refine ⟨_, collected_foldl commands, ?_⟩
  rw [createTool, ToolState.foldlM_commands wellFormed, if_neg (Bool.eq_false_iff.mp keeps)]
  have finish : ∀ tx, (commands.foldl Command.apply (ToolState.init : ToolState env)).finish tx = some tx := by
    intro tx
    rw [ToolState.finish, (collected_foldl commands).sign]
    rfl
  exact (congrArg (Option.bind _) (funext finish)).trans (Option.bind_fun_some _)

theorem length_setDestination_le (dest : CTxDestination) : (CScript.setDestination dest).length ≤ 25 := by
  cases dest <;> simp [CScript.setDestination, CScript.payToKeyID, CScript.pushData]

/-- The entries of the collected map are outputs of the commands. -/
theorem entries_good (wellFormed : ∀ command ∈ commands, command.WellFormed env) :
    ∀ output ∈ (SortedMap.filled compare (namedOutputs env commands)).toList,
      CBitcoinAddress.isValid false (env.addressOf output.1) = true ∧ moneyRange (env.toAmount output.2) = true := by
  intro output stored
  obtain ⟨command, member, named⟩ := List.mem_filterMap.mp (SortedMap.mem_of_mem_toList stored)
  cases command with
  | outaddr amount address =>
      cases named
      exact (wellFormed _ member).2.2
  | _ => cases named

/-- With an input or an output, the transaction is a new one with what was collected. -/
theorem assemble_raw (wellFormed : ∀ command ∈ commands, command.WellFormed env) (argc : commands.length < 2 ^ 31)
    {s : ToolState env} (collected : Collected commands s)
    (named : ¬(namedInputs commands = [] ∧ namedOutputs env commands = [])) (tx : CTransaction) :
    s.assemble = some tx ↔
      ((SortedMap.filled compare (namedOutputs env commands)).toList.map fun output => env.addressOf output.1).Nodup ∧
        (namedInputs commands).length ≤ maxSize ∧
        (SortedMap.filled compare (namedOutputs env commands)).toList.length ≤ maxSize ∧
        tx = { inOrder env commands with nVersion := 1, nLockTime := 0 } := by
  have inputs : (namedInputs commands).length < 2 ^ 31 := (List.length_filterMap_le _ _).trans_lt argc
  have outputs : (SortedMap.filled compare (namedOutputs env commands)).toList.length < 2 ^ 31 := by
    rw [Std.ExtTreeMap.length_toList]
    exact ((SortedMap.size_filled_le _).trans (List.length_filterMap_le _ _)).trans_lt argc
  have chosen : (!s.inputs.isEmpty || !s.outputs.isEmpty) = true := by
    rw [collected.inputs, collected.outputs, SortedMap.isEmpty_filled]
    by_contra none_
    simp only [Bool.or_eq_true, Bool.not_eq_true', List.isEmpty_eq_false_iff, not_or, not_not] at none_
    exact named none_
  have made := TxToolEnv.rawOutputs_eq_some_iff (entries_good wellFormed) [] []
  have decoded := @decodeHexTx_eq { inOrder env commands with nVersion := 1, nLockTime := 0 }
    (by simpa [inOrder] using inputs) (by simpa [inOrder] using outputs) (by simp [inOrder])
    (fun txout present => by
      obtain ⟨output, -, rfl⟩ := List.mem_map.mp present
      exact length_setDestination_le _)
  rw [ToolState.assemble, if_pos chosen, TxToolEnv.createRawTx, collected.inputs, collected.outputs]
  constructor
  · intro assembled
    obtain ⟨hex, created, read⟩ := Option.bind_eq_some_iff.mp assembled
    obtain ⟨vout, outputsMade, rfl⟩ := Option.map_eq_some_iff.mp created
    obtain ⟨distinct, -, rfl⟩ := (made vout).mp outputsMade
    have same := decoded.symm.trans read
    simp only [inOrder, List.length_map] at same
    split at same
    · rename_i sizes
      exact ⟨distinct, sizes.1, sizes.2, (Option.some.inj same).symm⟩
    · cases same
  · rintro ⟨distinct, fewInputs, fewOutputs, rfl⟩
    rw [(made _).mpr ⟨distinct, fun _ _ => List.not_mem_nil, rfl⟩]
    refine decoded.trans (if_pos ?_)
    simp only [inOrder, List.length_map]
    exact ⟨fewInputs, fewOutputs⟩

/-- Without inputs and outputs, the transaction is the one that `nversion=` and `nlocktime=` made, or a new one. -/
theorem assemble_bare {s : ToolState env} (collected : Collected commands s)
    (unnamed : namedInputs commands = [] ∧ namedOutputs env commands = []) :
    ∃ nTime, s.assemble = some { inOrder env commands with nTime := nTime } := by
  obtain ⟨nTime, variant⟩ := collected.variant
  refine ⟨nTime, ?_⟩
  have chosen : ¬(!s.inputs.isEmpty || !s.outputs.isEmpty) = true := by
    rw [collected.inputs, collected.outputs, SortedMap.isEmpty_filled, unnamed.1, unnamed.2]
    exact Bool.false_ne_true
  have none_ : (SortedMap.filled compare ([] : List (Bytes × env.Double))).toList = [] :=
    Std.ExtTreeMap.toList_eq_nil_iff.mpr rfl
  rw [ToolState.assemble, if_neg chosen, variant, inOrder, unnamed.1, unnamed.2, none_]
  rfl

theorem signTxWithKeys_bare {crypto : SignCrypto} {tx : CTransaction} (bare : tx.vin = []) (mapPrevOut : PrevOuts)
    (keys : List Bytes) (nHashType : Int32) (signer : Nat → Signer) :
    signTxWithKeys crypto false tx mapPrevOut keys nHashType signer =
      (addSecrets crypto.toKeyCrypto false keys .new).map fun _ => (tx, true) := by
  rw [signTxWithKeys, bare]
  rfl

/-- Signing would change nothing in a transaction without inputs, whenever it was made. -/
theorem unsigned_bare (unnamed : namedInputs commands = []) (nTime : UInt32) :
    (∃ fComplete, signTxWithKeys env.crypto false { inOrder env commands with nTime := nTime } (namedPrevOuts commands)
        (namedKeys commands) (lastHashType commands) env.signer =
          some ({ inOrder env commands with nTime := nTime }, fComplete)) ↔
      ∃ fComplete, signTxWithKeys env.crypto false (inOrder env commands) (namedPrevOuts commands)
        (namedKeys commands) (lastHashType commands) env.signer = some (inOrder env commands, fComplete) := by
  have bare : (inOrder env commands).vin = [] := by rw [inOrder, unnamed]; rfl
  have later : ({ inOrder env commands with nTime := nTime } : CTransaction).vin = [] := bare
  rw [signTxWithKeys_bare bare, signTxWithKeys_bare later]
  cases addSecrets env.crypto.toKeyCrypto false (namedKeys commands) .new <;> simp

/-- Signing keeps what an unsigned transaction is. -/
theorem Describes.eq_of_result {unsigned tx : CTransaction} (describes : Describes env commands unsigned)
    (vin : tx.vin = (namedInputs commands).map fun input => ⟨input, [], 0xffffffff⟩)
    (signed : if Command.sign ∈ commands ∧ namedKeys commands ≠ [] then
        ∃ fComplete, signTxWithKeys env.crypto false unsigned (namedPrevOuts commands) (namedKeys commands)
          (lastHashType commands) env.signer = some (tx, fComplete)
      else tx = unsigned) : unsigned = tx := by
  split at signed
  · obtain ⟨fComplete, done⟩ := signed
    have same := (signTxWithKeys_spec done).1
    exact CTransaction.ext same.nVersion.symm same.nTime.symm (describes.vin.trans vin.symm) same.vout.symm
      same.nLockTime.symm
  · exact signed.symm

theorem distinct_names (distinct : ((namedOutputs env commands).map fun output => env.addressOf output.1).Nodup) :
    ((namedOutputs env commands).map Prod.fst).Nodup :=
  .of_map env.addressOf (by rwa [List.map_map])

theorem inOrder_describes (distinct : ((namedOutputs env commands).map Prod.fst).Nodup) :
    Describes env commands (inOrder env commands) :=
  ⟨rfl, (SortedMap.filled_perm distinct).map _, rfl, rfl⟩

/-- As many outputs as commands: no address has taken the place of another. -/
theorem names_of_vout {tx : CTransaction} (describes : Describes env commands tx)
    (vout : tx.vout = (inOrder env commands).vout) : ((namedOutputs env commands).map Prod.fst).Nodup := by
  have length := describes.vout.length_eq
  rw [vout, inOrder, List.length_map, List.length_map] at length
  rw [Std.ExtTreeMap.length_toList] at length
  exact SortedMap.nodup_of_size length

/-- Without inputs and outputs, only signing is left undone. -/
theorem bare_iff (keeps : ∀ command ∈ commands, command.deletes = false) {s : ToolState env}
    (collected : Collected commands s) (unnamed : namedInputs commands = [] ∧ namedOutputs env commands = []) :
    AppliesEvery env commands s.assemble ↔ AppliesWhen env commands := by
  obtain ⟨nTime, assembled⟩ := assemble_bare collected unnamed
  rw [assembled]
  have outputs : ((namedOutputs env commands).map Prod.fst).Nodup := by
    rw [unnamed.2]
    exact List.nodup_nil
  have described : Describes env commands { inOrder env commands with nTime := nTime } :=
    ⟨rfl, (inOrder_describes outputs).vout, rfl, rfl⟩
  constructor
  · rintro ⟨unsigned, tx, made, describes, signed⟩
    cases made
    obtain rfl := describes.eq_of_result rfl signed
    refine ⟨keeps, by rw [unnamed.2]; exact List.nodup_nil, .inl unnamed, ?_, fun sign keys => ?_⟩
    · rw [unnamed.1, unnamed.2]
      exact ⟨Nat.zero_le _, Nat.zero_le _⟩
    · rw [if_pos ⟨sign, keys⟩] at signed
      exact (unsigned_bare unnamed.1 nTime).mp signed
  · intro applies
    refine ⟨_, _, rfl, described, ?_⟩
    split
    · rename_i asked
      exact (unsigned_bare unnamed.1 nTime).mpr (applies.unsigned asked.1 asked.2)
    · rfl

/-- With an input or an output, the numbers are lost and an address can lose its first output. -/
theorem raw_iff (wellFormed : ∀ command ∈ commands, command.WellFormed env) (argc : commands.length < 2 ^ 31)
    (keeps : ∀ command ∈ commands, command.deletes = false) {s : ToolState env} (collected : Collected commands s)
    (named : ¬(namedInputs commands = [] ∧ namedOutputs env commands = [])) :
    AppliesEvery env commands s.assemble ↔ AppliesWhen env commands := by
  constructor
  · rintro ⟨unsigned, tx, made, describes, signed⟩
    obtain ⟨distinct, fewInputs, fewOutputs, rfl⟩ := (assemble_raw wellFormed argc collected named tx).mp made
    obtain rfl := describes.eq_of_result rfl signed
    have entries := @SortedMap.filled_perm _ _ compare _ _ _ _ (names_of_vout describes rfl)
    have numbers : lastVersion commands = 1 ∧ lastLockTime commands = 0 :=
      ⟨describes.nVersion.symm, describes.nLockTime.symm⟩
    refine ⟨keeps, (entries.map _).nodup_iff.mp distinct, .inr numbers, ⟨fewInputs, ?_⟩, fun sign keys => ?_⟩
    · rw [← entries.length_eq]
      exact fewOutputs
    · have same : ({ inOrder env commands with nVersion := 1, nLockTime := 0 } : CTransaction) = inOrder env commands := by
        rw [← numbers.1, ← numbers.2]
        rfl
      rw [if_pos ⟨sign, keys⟩, same] at signed
      exact signed
  · intro applies
    have numbers := applies.numbers.resolve_left named
    have entries := @SortedMap.filled_perm _ _ compare _ _ _ _ (distinct_names applies.distinct)
    have same : inOrder env commands = { inOrder env commands with nVersion := 1, nLockTime := 0 } := by
      rw [← numbers.1, ← numbers.2]
      rfl
    refine ⟨inOrder env commands, inOrder env commands, (assemble_raw wellFormed argc collected named _).mpr ?_,
      inOrder_describes (distinct_names applies.distinct), ?_⟩
    · refine ⟨(entries.map _).nodup_iff.mpr applies.distinct, applies.sizes.1, ?_, same⟩
      rw [entries.length_eq]
      exact applies.sizes.2
    · split
      · rename_i asked
        exact applies.unsigned asked.1 asked.2
      · rfl

/-- The tool applies every command exactly when nothing is deleted, no address is named twice, the numbers are those
of a new transaction or stand alone, the vectors can be read, and signing would change nothing. -/
theorem createTool_appliesEvery_iff (wellFormed : ∀ command ∈ commands, command.WellFormed env)
    (argc : commands.length < 2 ^ 31) :
    AppliesEvery env commands (createTool env (commands.map Command.argument)) ↔ AppliesWhen env commands := by
  cases deletes : commands.any Command.deletes with
  | true =>
      refine iff_of_false ?_ fun applies => ?_
      · rintro ⟨unsigned, tx, made, -⟩
        rw [createTool_deletes wellFormed deletes] at made
        cases made
      · obtain ⟨command, member, yes⟩ := List.any_eq_true.mp deletes
        rw [applies.keeps command member] at yes
        cases yes
  | false =>
      have keeps : ∀ command ∈ commands, command.deletes = false := fun command member =>
        Bool.eq_false_iff.mpr (List.any_eq_false.mp deletes command member)
      obtain ⟨s, collected, made⟩ := createTool_eq wellFormed deletes
      rw [made]
      by_cases named : namedInputs commands = [] ∧ namedOutputs env commands = []
      · exact bare_iff keeps collected named
      · exact raw_iff wellFormed argc keeps collected named

/-- What every command's being applied says about the result alone. -/
theorem AppliesEvery.result {tx : CTransaction} (applied : AppliesEvery env commands (some tx)) :
    tx.nVersion = lastVersion commands ∧ tx.vout.length = (namedOutputs env commands).length := by
  obtain ⟨unsigned, _, made, describes, signed⟩ := applied
  cases made
  have same : SameUnsigned tx unsigned := by
    split at signed
    · obtain ⟨fComplete, done⟩ := signed
      exact (signTxWithKeys_spec done).1
    · exact signed ▸ SameUnsigned.refl _
  rw [same.nVersion, same.vout, describes.vout.length_eq, List.length_map]
  exact ⟨describes.nVersion, rfl⟩

/-- Where `sign` was asked for and nothing is signed, signing changes nothing. -/
theorem AppliesEvery.signed {tx : CTransaction} (applied : AppliesEvery env commands (some tx))
    (vin : tx.vin = (namedInputs commands).map fun input => ⟨input, [], 0xffffffff⟩)
    (asked : Command.sign ∈ commands ∧ namedKeys commands ≠ []) :
    ∃ fComplete, signTxWithKeys env.crypto false tx (namedPrevOuts commands) (namedKeys commands)
      (lastHashType commands) env.signer = some (tx, fComplete) := by
  obtain ⟨unsigned, _, made, describes, signed⟩ := applied
  cases made
  obtain rfl := describes.eq_of_result vin signed
  rwa [if_pos asked] at signed

end Create

section Concrete

/-- Amounts are whole coins. -/
def sampleTool : TxToolEnv where
  crypto := idealCrypto
  signer := idealSigner
  Double := Int64
  atof := atoi64
  toAmount amount := amount * coin
  nTimeVariant := 1000
  nTimeNew := 1001

/-- The address of the key 7. -/
def firstAddress : Bytes := List.replicate 20 49 ++ [110, 122, 54, 105, 121, 77]

/-- The address of the key 8. -/
def secondAddress : Bytes := List.replicate 20 49 ++ [117, 90, 55, 89, 80, 121]

def plainCommands : List Command :=
  [.outaddr [49] secondAddress, .input [48, 49] [48], .nlocktime [48], .outaddr [50] firstAddress, .sign,
    .input [48, 50] [51]]

theorem createTool_applies_plain :
    AppliesEvery sampleTool plainCommands (createTool sampleTool (plainCommands.map Command.argument)) := by
  refine (createTool_appliesEvery_iff (by decide +kernel) (by decide)).mpr ?_
  exact ⟨by decide, by decide +kernel, .inr (by decide), by decide +kernel, fun _ keys => absurd rfl keys⟩

/-- One input, its script, its key and `sign`. -/
def signCommands : List Command :=
  [.input [48, 49] [48], .signprevtxin [48, 49] [48] (WalletDump.hexStr (paysToSecret 7)), .key firstSecret, .sign]

/-- An address that is named twice gets one output, a version that is given with an output is lost, and `sign` does
nothing. -/
theorem createTool_loses :
    ¬AppliesEvery sampleTool [.outaddr [49] firstAddress, .outaddr [50] firstAddress]
        (createTool sampleTool
          ([Command.outaddr [49] firstAddress, .outaddr [50] firstAddress].map Command.argument)) ∧
      ¬AppliesEvery sampleTool [.nversion [50], .outaddr [49] firstAddress]
        (createTool sampleTool ([Command.nversion [50], .outaddr [49] firstAddress].map Command.argument)) ∧
      ¬AppliesEvery sampleTool signCommands (createTool sampleTool (signCommands.map Command.argument)) := by
  have lost : ∀ commands : List Command, ((createTool sampleTool (commands.map Command.argument)).any fun tx =>
      decide (tx.nVersion ≠ lastVersion commands ∨ tx.vout.length ≠ (namedOutputs sampleTool commands).length)) = true →
        ¬AppliesEvery sampleTool commands (createTool sampleTool (commands.map Command.argument)) := by
    intro commands wrong applied
    obtain ⟨tx, made, wrong⟩ := (Option.any_eq_true _ _).mp wrong
    rw [made] at applied
    obtain ⟨version, outputs⟩ := applied.result
    rcases of_decide_eq_true wrong with other | other
    · exact other version
    · exact other outputs
  refine ⟨lost _ (by decide +kernel), lost _ (by decide +kernel), fun applied => ?_⟩
  have left : ((createTool sampleTool (signCommands.map Command.argument)).any fun tx =>
      decide (tx.vin = (namedInputs signCommands).map fun input => ⟨input, [], 0xffffffff⟩) &&
        (signTxWithKeys idealCrypto false tx (namedPrevOuts signCommands) (namedKeys signCommands)
          (lastHashType signCommands) idealSigner).all fun result => decide (result.1 ≠ tx)) = true := by decide +kernel
  obtain ⟨tx, made, unsigned⟩ := (Option.any_eq_true _ _).mp left
  rw [made] at applied
  obtain ⟨vin, changes⟩ := Bool.and_eq_true_iff.mp unsigned
  obtain ⟨fComplete, done⟩ := applied.signed (of_decide_eq_true vin) ⟨by decide, by decide⟩
  exact of_decide_eq_true (Option.all_eq_true _ _ |>.mp changes _ done) rfl

end Concrete

end InfiniteRicks
