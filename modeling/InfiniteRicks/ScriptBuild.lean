import InfiniteRicks.Accept
import InfiniteRicks.BigNumSpec
import InfiniteRicks.InterpreterSpec

/-!
# Scripts that are built and read back

`operator<<` of `CScript` chooses among four forms of a push by the size of the data, and
`GetOp2` chooses by the opcode. What has been appended is read back in order, up to the
end of the script, and a script of pushes leaves what it pushes.
-/

namespace InfiniteRicks

namespace CScript

/-- What `operator<<` appends. The enumerators of `opcodetype` are bytes. -/
inductive Item where
  | opcode (code : UInt8)
  | int64 (n : Int64)
  | data (b : Bytes)
deriving DecidableEq

/-- `operator<<`. -/
def append (script : CScript) : Item → CScript
  | .opcode code => script ++ [code]
  | .int64 n => script ++ pushInt64 n
  | .data b => script ++ pushData b

/-- An empty `CScript` to which items are appended. -/
def build (items : List Item) : CScript := items.foldl append []

/-- `CScript::GetOp2` at a position: the opcode, its operand and the position behind them.
What is left of the script is compared as an `unsigned int`. -/
def getOp2 (script : CScript) (pc : Nat) : Option (UInt8 × Bytes × Nat) :=
  match script[pc]? with
  | none => none
  | some opcode =>
      let pc := pc + 1
      if opcode ≤ opPushData4 then
        let width := pushWidth opcode
        if script.length - pc < width then none
        else
          let nSize := if width = 0 then opcode.toNat else littleEndian ((script.drop pc).take width)
          let pc := pc + width
          if (script.length - pc) % 2 ^ 32 < nSize then none
          else some (opcode, (script.drop pc).take nSize, pc + nSize)
      else some (opcode, [], pc)

/-- The loop `while (GetOp(pc, opcode, vch))`: what it reads and where it stops. Every
instruction is at least a byte, so the length of the script is enough fuel. -/
def readOps (script : CScript) : Nat → Nat → List (UInt8 × Bytes) × Nat
  | 0, pc => ([], pc)
  | fuel + 1, pc =>
      match getOp2 script pc with
      | none => ([], pc)
      | some (opcode, data, next) =>
          let (ops, last) := readOps script fuel next
          ((opcode, data) :: ops, last)

/-- `PushAll`. -/
def pushAll (values : List Bytes) : CScript := values.foldl (fun result v => result ++ pushData v) []

/-- The opcode that stands in front of pushed data. -/
def pushOpcodeOf (b : Bytes) : UInt8 :=
  if b.length < 76 then UInt8.ofNat b.length
  else if b.length ≤ 0xff then opPushData1
  else if b.length ≤ 0xffff then opPushData2
  else opPushData4

namespace Item

/-- What an item is read back as. -/
def op : Item → UInt8 × Bytes
  | .opcode code => (code, [])
  | .int64 n =>
      if n = -1 ∨ (1 ≤ n ∧ n ≤ 16) then (UInt8.ofInt (n.toInt + 0x50), [])
      else (pushOpcodeOf (CBigNum.getvch n.toInt), CBigNum.getvch n.toInt)
  | .data b => (pushOpcodeOf b, b)

/-- No push opcode without its data, and data whose size has 32 bits. -/
def Fits : Item → Prop
  | .opcode code => code = 0 ∨ opPushData4 < code
  | .int64 _ => True
  | .data b => b.length < 2 ^ 32

/-- The bytes of an item. -/
def bytes (item : Item) : CScript := append [] item

end Item

section Reading

theorem append_eq (script : CScript) (item : Item) : append script item = script ++ item.bytes := by
  cases item <;> rfl

theorem foldl_append (items : List Item) (script : CScript) :
    items.foldl append script = script ++ items.flatMap Item.bytes := by
  induction items generalizing script with
  | nil => exact (List.append_nil script).symm
  | cons item rest ih => rw [List.foldl_cons, ih, append_eq, List.append_assoc, List.flatMap_cons]

theorem build_eq (items : List Item) : build items = items.flatMap Item.bytes := foldl_append items []

theorem getOp_bare {opcode : UInt8} (bare : opcode = 0 ∨ opPushData4 < opcode) (pc : CScript) :
    getOp (opcode :: pc) = some (opcode, [], pc) := by
  rcases bare with rfl | plain
  · rw [getOp, if_pos (by decide)]
    have width : pushWidth 0 = 0 := by decide
    simp only [width, Nat.not_lt_zero, if_false, if_true, List.drop_zero, UInt8.toNat_zero, List.take_zero]
  · rw [getOp, if_neg (UInt8.not_le.mpr plain)]

/-- A push is read back when its size bytes have the width and the value that its opcode
asks for. -/
theorem getOp_sized {opcode : UInt8} {size b : Bytes} (push : opcode ≤ opPushData4)
    (width : pushWidth opcode = size.length)
    (value : (if size.length = 0 then opcode.toNat else littleEndian size) = b.length)
    (pc : CScript) : getOp (opcode :: (size ++ (b ++ pc))) = some (opcode, b, pc) := by
  rw [getOp, if_pos push]
  simp only [width, List.take_left, List.drop_left, value]
  rw [if_neg (by rw [List.length_append]; omega), if_neg (by rw [List.length_append]; omega)]

theorem pushWidth_short {n : Nat} (short : n < 76) : pushWidth (UInt8.ofNat n) = 0 := by
  have size : (UInt8.ofNat n).toNat = n := by
    rw [UInt8.toNat_ofNat']
    omega
  have other : ∀ opcode : UInt8, 76 ≤ opcode.toNat → UInt8.ofNat n ≠ opcode := by
    rintro _ large rfl
    omega
  rw [pushWidth, if_neg (other _ (by decide)), if_neg (other _ (by decide)), if_neg (other _ (by decide))]

/-- Data of any size is read back, in each of the four forms. -/
theorem getOp_pushed {b : Bytes} (limit : b.length < 2 ^ 32) (pc : CScript) :
    getOp (pushData b ++ pc) = some (pushOpcodeOf b, b, pc) := by
  unfold pushData pushOpcodeOf
  split_ifs with short byte word
  · refine @getOp_sized (UInt8.ofNat b.length) [] b ?_ (pushWidth_short short) ?_ pc
    · rw [UInt8.le_iff_toNat_le, UInt8.toNat_ofNat']
      exact (Nat.mod_le _ _).trans (short.le.trans (by decide))
    · rw [List.length_nil, if_pos rfl, UInt8.toNat_ofNat']
      omega
  · refine @getOp_sized opPushData1 [_] b (by decide) rfl ?_ pc
    rw [List.length_singleton, if_neg Nat.one_ne_zero, littleEndian, littleEndian, UInt8.toNat_ofNat']
    omega
  · refine @getOp_sized opPushData2 [_, _] b (by decide) rfl ?_ pc
    rw [if_neg (by simp)]
    simp only [littleEndian, UInt8.toNat_ofNat']
    omega
  · refine @getOp_sized opPushData4 [_, _, _, _] b (by decide) rfl ?_ pc
    rw [if_neg (by simp)]
    simp only [littleEndian, UInt8.toNat_ofNat']
    omega

theorem getvch_lt (n : Int64) : (CBigNum.getvch n.toInt).length < 2 ^ 32 := by
  have low := n.le_toInt
  have high := n.toInt_lt
  have size := CBigNum.mpiSize_lt_of_le (n := n.toInt.natAbs) (by omega)
  rw [CBigNum.getvch_length]
  omega

/-- The opcodes of small integers are not pushes. -/
theorem smallInt_plain {n : Int64} (small : n = -1 ∨ (1 ≤ n ∧ n ≤ 16)) :
    opPushData4 < UInt8.ofInt (n.toInt + 0x50) := by
  have range : n.toInt = -1 ∨ (1 ≤ n.toInt ∧ n.toInt ≤ 16) := by
    rcases small with rfl | ⟨low, high⟩
    · exact .inl rfl
    · exact .inr ⟨Int64.le_iff_toInt_le.mp low, Int64.le_iff_toInt_le.mp high⟩
  have all : ∀ k : Fin 18, opPushData4 < UInt8.ofInt ((k : Int) - 1 + 0x50) := by decide
  have this := all ⟨(n.toInt + 1).toNat, by omega⟩
  rwa [show (((n.toInt + 1).toNat : Nat) : Int) - 1 = n.toInt by omega] at this

theorem getOp_item {item : Item} (fits : item.Fits) (pc : CScript) :
    getOp (item.bytes ++ pc) = some (item.op.1, item.op.2, pc) := by
  cases item with
  | opcode code => exact getOp_bare fits pc
  | data b => exact getOp_pushed fits pc
  | int64 n =>
      rw [Item.bytes, append, List.nil_append, pushInt64, Item.op]
      split_ifs with small
      · exact getOp_bare (.inr (smallInt_plain small)) pc
      · exact getOp_pushed (getvch_lt n) pc

end Reading

section Positions

variable {script : CScript} {pc next : Nat} {opcode : UInt8} {data : Bytes}

/-- An instruction ends behind where it starts, and within the script. -/
theorem getOp2_advances (read : getOp2 script pc = some (opcode, data, next)) : pc < next ∧ next ≤ script.length := by
  unfold getOp2 at read
  split at read
  · cases read
  rename_i first found
  obtain ⟨inside, -⟩ := List.getElem?_eq_some_iff.mp found
  dsimp only at read
  by_cases push : first ≤ opPushData4
  · rw [if_pos push] at read
    by_cases cut : script.length - (pc + 1) < pushWidth first
    · rw [if_pos cut] at read
      cases read
    rw [if_neg cut] at read
    -- A size that is compared modulo `2 ^ 32` is never larger than what is left.
    have left := Nat.mod_le (script.length - (pc + 1 + pushWidth first)) (2 ^ 32)
    generalize
      (if pushWidth first = 0 then first.toNat else littleEndian ((script.drop (pc + 1)).take (pushWidth first)))
      = nSize at read
    by_cases short : (script.length - (pc + 1 + pushWidth first)) % 2 ^ 32 < nSize
    · rw [if_pos short] at read
      cases read
    rw [if_neg short] at read
    cases read
    omega
  · rw [if_neg push] at read
    cases read
    omega

/-- In a script whose size has 32 bits, `GetOp2` reads what is left of it. -/
theorem getOp2_eq {done rest : CScript} (small : (done ++ rest).length < 2 ^ 32) :
    getOp2 (done ++ rest) done.length =
      (getOp rest).map fun r => (r.1, r.2.1, (done ++ rest).length - r.2.2.length) := by
  cases rest with
  | nil => simp [getOp2, getOp]
  | cons first pc =>
      have left : (done ++ first :: pc).drop (done.length + 1) = pc := by
        rw [List.drop_append, List.drop_of_length_le (Nat.le_succ _), Nat.add_sub_cancel_left]
        rfl
      have size : (done ++ first :: pc).length - (done.length + 1) = pc.length := by
        rw [List.length_append, List.length_cons]
        omega
      rw [List.length_append, List.length_cons] at small
      unfold getOp2 getOp
      rw [List.getElem?_append_right le_rfl, Nat.sub_self, List.getElem?_cons_zero]
      dsimp only
      by_cases push : first ≤ opPushData4
      · rw [if_pos push, if_pos push, size, left]
        by_cases cut : pc.length < pushWidth first
        · rw [if_pos cut, if_pos cut]
          rfl
        rw [if_neg cut, if_neg cut]
        have more : (done ++ first :: pc).length - (done.length + 1 + pushWidth first) =
            (pc.drop (pushWidth first)).length := by
          rw [← Nat.sub_sub, size, List.length_drop]
        have after : (done ++ first :: pc).drop (done.length + 1 + pushWidth first) = pc.drop (pushWidth first) := by
          rw [← List.drop_drop, left]
        rw [more, after, Nat.mod_eq_of_lt (by rw [List.length_drop]; omega)]
        generalize (if pushWidth first = 0 then first.toNat else littleEndian (pc.take (pushWidth first))) = nSize
        by_cases short : (pc.drop (pushWidth first)).length < nSize
        · rw [if_pos short, if_pos short]
          rfl
        · rw [if_neg short, if_neg short, Option.map_some]
          rw [List.length_drop] at short
          simp only [List.length_append, List.length_cons, List.length_drop]
          congr 3
          omega
      · rw [if_neg push, if_neg push, Option.map_some]
        simp only [List.length_append, List.length_cons]
        congr 3
        omega

end Positions

section Building

theorem readOps_items {done : CScript} {items : List Item} (fits : ∀ item ∈ items, item.Fits)
    (small : (done ++ items.flatMap Item.bytes).length < 2 ^ 32) {fuel : Nat} (enough : items.length ≤ fuel) :
    readOps (done ++ items.flatMap Item.bytes) fuel done.length =
      (items.map Item.op, (done ++ items.flatMap Item.bytes).length) := by
  induction items generalizing done fuel with
  | nil =>
      have stop : getOp2 (done ++ []) done.length = none := by simp [getOp2]
      cases fuel with
      | zero => simp [readOps]
      | succ fuel =>
          rw [List.flatMap_nil, readOps, stop, List.append_nil]
          rfl
  | cons item rest ih =>
      obtain ⟨own, others⟩ := List.forall_mem_cons.mp fits
      obtain ⟨fuel, rfl⟩ : ∃ k, fuel = k + 1 := ⟨fuel - 1, by rw [List.length_cons] at enough; omega⟩
      have script : done ++ (item :: rest).flatMap Item.bytes = (done ++ item.bytes) ++ rest.flatMap Item.bytes := by
        rw [List.flatMap_cons, List.append_assoc]
      have read := getOp2_eq small
      rw [List.flatMap_cons, getOp_item own, Option.map_some] at read
      have next : (done ++ (item.bytes ++ rest.flatMap Item.bytes)).length - (rest.flatMap Item.bytes).length =
          (done ++ item.bytes).length := by
        simp only [List.length_append]
        omega
      rw [List.flatMap_cons, readOps, read]
      dsimp only
      rw [next, ← List.append_assoc, ih others (script ▸ small) (by rw [List.length_cons] at enough; omega)]
      rfl

theorem bytes_ne_nil {item : Item} (fits : item.Fits) : item.bytes ≠ [] := by
  intro empty
  have read := getOp_item fits []
  rw [empty] at read
  cases read

theorem length_le_build {items : List Item} (fits : ∀ item ∈ items, item.Fits) :
    items.length ≤ (items.flatMap Item.bytes).length := by
  induction items with
  | nil => exact le_rfl
  | cons item rest ih =>
      obtain ⟨own, others⟩ := List.forall_mem_cons.mp fits
      have some := List.length_pos_iff.mpr (bytes_ne_nil own)
      have more := ih others
      rw [List.flatMap_cons, List.length_append, List.length_cons]
      omega

theorem readOps_build {items : List Item} (fits : ∀ item ∈ items, item.Fits) (small : (build items).length < 2 ^ 32) :
    readOps (build items) (build items).length 0 = (items.map Item.op, (build items).length) := by
  rw [build_eq] at small ⊢
  exact @readOps_items [] items fits small _ (length_le_build fits)

end Building

end CScript

section Evaluation

open CScript

variable (ctx : EvalContext)

theorem pushAll_eq (values : List Bytes) : pushAll values = values.flatMap pushData := by
  have start : ∀ result, values.foldl (fun result v => result ++ pushData v) result =
    result ++ values.flatMap pushData := by
    induction values with
    | nil => exact fun result => (List.append_nil result).symm
    | cons v rest ih => exact fun result => by rw [List.foldl_cons, ih, List.append_assoc, List.flatMap_cons]
  exact start []

theorem pushOpcodeOf_le (b : Bytes) : pushOpcodeOf b ≤ opPushData4 := by
  unfold pushOpcodeOf
  split_ifs with short
  · rw [UInt8.le_iff_toNat_le, UInt8.toNat_ofNat']
    exact (Nat.mod_le _ _).trans (short.le.trans (by decide))
  all_goals decide

/-- One round of the interpreter on a push that is executed. -/
theorem evalStep_push {opcode : UInt8} {v : Bytes} {next : CScript} {s : EvalState} (push : opcode ≤ opPushData4)
    (size : v.length ≤ maxScriptElementSize) (executed : s.vfExec = [])
    (room : s.stack.length + 1 + s.altstack.length ≤ 1000) :
    evalStep ctx opcode v next s = .ok () { s with stack := v :: s.stack } := by
  have enabled : isDisabled opcode = false := by
    have all : ∀ n < 79, isDisabled (UInt8.ofNat n) = false := by decide
    have same := all opcode.toNat (Nat.lt_succ_of_le (UInt8.le_iff_toNat_le.mp push))
    rwa [UInt8.ofNat_toNat] at same
  have uncounted : ¬ op16 < opcode := UInt8.not_lt.mpr (UInt8.le_trans push (by decide))
  have exec : s.fExec = true := by
    rw [EvalState.fExec, executed]
    rfl
  have below : ¬ 1000 < s.stack.length + 1 + s.altstack.length := by omega
  have read : ∀ {σ : Type} (s : σ), (get : EStateM Exit σ σ) s = .ok s s := fun _ => rfl
  have write : ∀ {σ : Type} (f : σ → σ) (s : σ), (modify f : EStateM Exit σ PUnit) s = .ok () (f s) := fun _ _ => rfl
  simp [evalStep, countOpcode, dispatch, returnFalseIf, onStacks, InfiniteRicks.push, bind, EStateM.bind,
    pure, EStateM.pure, read, write, Nat.not_lt.mpr size, uncounted, enabled, exec, push, below]

/-- The loop pushes what is left. -/
theorem evalLoop_pushes {values : List Bytes} (sizes : ∀ v ∈ values, v.length ≤ maxScriptElementSize) {fuel : Nat}
    (enough : values.length ≤ fuel) {s : EvalState} (executed : s.vfExec = [])
    (room : s.stack.length + values.length + s.altstack.length ≤ 1000) :
    evalLoop ctx fuel (values.flatMap pushData) s = .ok () { s with stack := values.reverse ++ s.stack } := by
  induction values generalizing fuel s with
  | nil =>
      cases fuel <;> rfl
  | cons v rest ih =>
      obtain ⟨own, others⟩ := List.forall_mem_cons.mp sizes
      rw [List.length_cons] at enough room
      obtain ⟨fuel, rfl⟩ : ∃ k, fuel = k + 1 := ⟨fuel - 1, by omega⟩
      have read := @getOp_pushed v (own.trans_lt (by decide)) (rest.flatMap pushData)
      have step := @evalStep_push ctx _ v (rest.flatMap pushData) s (pushOpcodeOf_le v) own executed (by omega)
      have later := @ih others fuel (by omega) { s with stack := v :: s.stack } executed
        (show (v :: s.stack).length + rest.length + s.altstack.length ≤ 1000 by rw [List.length_cons]; omega)
      rw [List.flatMap_cons]
      cases script : pushData v ++ rest.flatMap pushData with
      | nil =>
          rw [script] at read
          cases read
      | cons first pc =>
          rw [script] at read
          conv_lhs => unfold evalLoop
          simp only [read, bind, EStateM.bind, step]
          rw [later, List.reverse_cons, List.append_assoc]
          rfl

/-- What `PushAll` has built leaves its values on the stack, the last one on top. -/
theorem evalScript_pushAll {values : List Bytes} (sizes : ∀ v ∈ values, v.length ≤ maxScriptElementSize)
    (few : values.length ≤ 1000) (limit : (pushAll values).length ≤ 10000) :
    evalScript ctx [] (pushAll values) =
      (true, { EvalState.start [] (pushAll values) with stack := values.reverse }) := by
  have enough : values.length ≤ (values.flatMap pushData).length := by
    have items := @length_le_build (values.map Item.data) fun item member => by
      obtain ⟨v, listed, rfl⟩ := List.mem_map.mp member
      exact (sizes v listed).trans_lt (by decide)
    rwa [List.length_map, List.flatMap_map] at items
  rw [pushAll_eq] at limit ⊢
  rw [evalScript, evalBody, if_neg (Nat.not_lt.mpr limit),
    evalLoop_pushes ctx sizes enough rfl (by rw [EvalState.start]; simpa using few)]
  simp [EvalState.start]

end Evaluation

/-- What has been appended to a script is read back in order up to its end, reading
always moves on within the script, and a script of pushes leaves what it pushes. -/
theorem built_scripts_are_read_back :
    (∀ items : List CScript.Item, (∀ item ∈ items, item.Fits) → (CScript.build items).length < 2 ^ 32 →
      CScript.readOps (CScript.build items) (CScript.build items).length 0 =
        (items.map CScript.Item.op, (CScript.build items).length)) ∧
    (∀ (script : CScript) (pc : Nat) (opcode : UInt8) (data : Bytes) (next : Nat),
      CScript.getOp2 script pc = some (opcode, data, next) → pc < next ∧ next ≤ script.length) ∧
    ∀ (ctx : EvalContext) (values : List Bytes), (∀ v ∈ values, v.length ≤ maxScriptElementSize) →
      values.length ≤ 1000 → (CScript.pushAll values).length ≤ 10000 →
        (evalScript ctx [] (CScript.pushAll values)).1 = true ∧
          (evalScript ctx [] (CScript.pushAll values)).2.stack.reverse = values := by
  refine ⟨fun items fits small => CScript.readOps_build fits small,
    fun script pc opcode data next read => CScript.getOp2_advances read, fun ctx values sizes few limit => ?_⟩
  rw [evalScript_pushAll ctx sizes few limit]
  exact ⟨rfl, List.reverse_reverse values⟩

/-- The number 17, a push of it, and an empty one. -/
theorem built_scripts_are_read_back_sample :
    CScript.readOps (CScript.build [.int64 17, .int64 16, .opcode 0, .data []]) 5 0 =
        ([(1, [17]), (0x60, []), (0, []), (0, [])], 5) ∧
      (∀ pc opcode data next, CScript.getOp2 [0x4c, 1, 7] pc = some (opcode, data, next) → next ≤ 3) ∧
      (evalScript ⟨sampleCrypto, CTransaction.labelledSpend 1 0 ⟨0, 0⟩ 0, 0, 0⟩ []
          (CScript.pushAll [[1], [2, 3]])).2.stack.reverse =
        [[1], [2, 3]] :=
  ⟨built_scripts_are_read_back.1 [.int64 17, .int64 16, .opcode 0, .data []] (by
      simp only [List.forall_mem_cons, CScript.Item.Fits, List.not_mem_nil, false_implies, implies_true, and_true,
        true_and]
      decide) (by decide),
    fun pc opcode data next read => (built_scripts_are_read_back.2.1 _ pc opcode data next read).2,
    (built_scripts_are_read_back.2.2 _ [[1], [2, 3]] (by decide) (by decide) (by decide)).2⟩

end InfiniteRicks
