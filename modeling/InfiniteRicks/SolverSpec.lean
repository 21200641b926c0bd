import InfiniteRicks.Ownership
import InfiniteRicks.CreateTransaction

/-!
# What the script templates recognise

The templates as grammars over the operations of a script. `Solver` finds exactly the scripts in them, and finds the
parts again that `SetDestination` and `SetMultisig` put into theirs.
-/

namespace InfiniteRicks

namespace CScript

/-- An operation that has been read: its opcode and what it pushes. -/
abbrev Op := UInt8 × Bytes

/-- The operations from one position of a script to another. -/
inductive Reads : CScript → List Op → CScript → Prop
  | nil (pc : CScript) : Reads pc [] pc
  | cons {pc next last : CScript} {op : Op} {ops : List Op} (first : getOp pc = some (op.1, op.2, next))
      (rest : Reads next ops last) : Reads pc (op :: ops) last

/-- The operations of a script that can be read to its end. -/
def Parses (script : CScript) (ops : List Op) : Prop := Reads script ops []

theorem reads_cons {pc last : CScript} {op : Op} {ops : List Op} :
    Reads pc (op :: ops) last ↔ ∃ next, getOp pc = some (op.1, op.2, next) ∧ Reads next ops last := by
  constructor
  · rintro ⟨⟩
    exact ⟨_, ‹_›, ‹_›⟩
  · rintro ⟨next, first, rest⟩
    exact .cons first rest

theorem reads_nil {pc last : CScript} : Reads pc [] last ↔ pc = last := by
  constructor
  · rintro ⟨⟩
    rfl
  · rintro rfl
    exact .nil pc

theorem reads_append {pc last : CScript} {front back : List Op} :
    Reads pc (front ++ back) last ↔ ∃ mid, Reads pc front mid ∧ Reads mid back last := by
  induction front generalizing pc with
  | nil => simp [reads_nil]
  | cons op front ih =>
      rw [List.cons_append, reads_cons]
      constructor
      · rintro ⟨next, first, rest⟩
        obtain ⟨mid, there, back⟩ := ih.mp rest
        exact ⟨mid, .cons first there, back⟩
      · rintro ⟨mid, there, back⟩
        obtain ⟨next, first, rest⟩ := reads_cons.mp there
        exact ⟨next, first, ih.mpr ⟨mid, rest, back⟩⟩

/-- Operations take at least a byte each. -/
theorem Reads.length_le {pc last : CScript} {ops : List Op} (reads : Reads pc ops last) :
    ops.length + last.length ≤ pc.length := by
  induction reads with
  | nil => exact (Nat.zero_add _).le
  | cons first _ ih =>
      have shorter := length_of_getOp first
      rw [List.length_cons]
      omega

/-- A script has one list of operations. -/
theorem Parses.unique {script : CScript} {ops ops' : List Op} (parses : Parses script ops)
    (other : Parses script ops') : ops = ops' := by
  induction ops generalizing script ops' with
  | nil =>
      obtain rfl := reads_nil.mp parses
      cases other with
      | nil => rfl
      | cons first _ => cases first
  | cons op ops ih =>
      obtain ⟨next, first, rest⟩ := reads_cons.mp parses
      cases other with
      | nil => cases first
      | @cons _ _ _ op' _ first' rest' =>
          obtain ⟨opcode, data, rfl⟩ := by simpa using first.symm.trans first'
          rw [ih rest rest', show op = op' from Prod.ext opcode data]

theorem getOp_plain {opcode : UInt8} (plain : opPushData4 < opcode) (pc : CScript) :
    getOp (opcode :: pc) = some (opcode, [], pc) := by
  rw [getOp, if_neg (UInt8.not_le.mpr plain)]

/-- A short push is its length and its data. -/
theorem getOp_pushData {data : Bytes} (short : data.length < 76) (pc : CScript) :
    getOp (pushData data ++ pc) = some (UInt8.ofNat data.length, data, pc) := by
  have size : (UInt8.ofNat data.length).toNat = data.length := by
    rw [UInt8.toNat_ofNat']
    omega
  have width : pushWidth (UInt8.ofNat data.length) = 0 := by
    have ne : ∀ opcode : UInt8, 76 ≤ opcode.toNat → UInt8.ofNat data.length ≠ opcode := by
      rintro _ large rfl
      omega
    rw [pushWidth, if_neg (ne opPushData1 (by decide)), if_neg (ne opPushData2 (by decide)),
      if_neg (ne opPushData4 (by decide))]
  have small : UInt8.ofNat data.length ≤ opPushData4 := by
    rw [UInt8.le_iff_toNat_le, size]
    exact short.le.trans (by decide)
  rw [pushData, if_pos short, List.cons_append, getOp, if_pos small]
  simp only [width, Nat.not_lt_zero, if_false, if_true, size, List.drop_zero]
  rw [if_neg (by rw [List.length_append]; omega), List.take_left, List.drop_left]

/-- The opcode of a push of at most 255 bytes. -/
def pushOpcode (data : Bytes) : UInt8 := if data.length < 76 then UInt8.ofNat data.length else opPushData1

theorem getOp_push {data : Bytes} (limit : data.length ≤ 0xff) (pc : CScript) :
    getOp (pushData data ++ pc) = some (pushOpcode data, data, pc) := by
  rw [pushOpcode]
  split_ifs with short
  · exact getOp_pushData short pc
  · have size : littleEndian [UInt8.ofNat data.length] = data.length := by
      rw [littleEndian, littleEndian, UInt8.toNat_ofNat']
      omega
    have width : pushWidth 76 = 1 := by decide
    rw [pushData, if_neg short, if_pos limit, List.cons_append, List.cons_append, getOp, if_pos (by decide)]
    simp only [width, List.length_cons, List.take_succ_cons, List.take_zero, List.drop_succ_cons, List.drop_zero, size,
      Nat.one_ne_zero, if_false]
    rw [if_neg (by omega), if_neg (by rw [List.length_append]; omega), List.take_left, List.drop_left]
    rfl

/-- What an operation was read from, where its size is not written out. -/
theorem eq_of_getOp {pc next : CScript} {opcode : UInt8} {data : Bytes} (read : getOp pc = some (opcode, data, next))
    (width : pushWidth opcode = 0) :
    pc = opcode :: (data ++ next) ∧ data.length = if opcode ≤ opPushData4 then opcode.toNat else 0 := by
  cases pc with
  | nil => cases read
  | cons first pc =>
      rw [getOp] at read
      by_cases push : first ≤ opPushData4
      · rw [if_pos push] at read
        dsimp only at read
        have own : ∀ {nSize : Nat} {pc : CScript}, (if pc.length < nSize then Option.none
            else some (first, pc.take nSize, pc.drop nSize)) = some (opcode, data, next) →
            ¬ pc.length < nSize ∧ first = opcode ∧ pc.take nSize = data ∧ pc.drop nSize = next := by
          intro nSize pc read
          split_ifs at read with short
          obtain ⟨same, taken, rest⟩ := by simpa using read
          exact ⟨short, same, taken, rest⟩
        by_cases cut : pc.length < pushWidth first
        · rw [if_pos cut] at read
          cases read
        rw [if_neg cut] at read
        obtain ⟨enough, rfl, rfl, rfl⟩ := own read
        simp only [width, if_true, List.drop_zero] at enough ⊢
        rw [List.take_append_drop, if_pos push, List.length_take_of_le (Nat.le_of_not_lt enough)]
        exact ⟨rfl, rfl⟩
      · rw [if_neg push] at read
        cases read
        rw [if_neg push]
        exact ⟨rfl, rfl⟩

/-- `OP_0` and the opcodes after the pushes push nothing. -/
theorem getOp_data {pc next : CScript} {opcode : UInt8} {data : Bytes} (read : getOp pc = some (opcode, data, next))
    (bare : opcode = 0 ∨ opPushData4 < opcode) : data = [] := by
  have width : pushWidth opcode = 0 := by
    rcases bare with rfl | plain
    · decide
    · have ne : ∀ small, small ≤ opPushData4 → opcode ≠ small := by
        rintro _ small rfl
        exact UInt8.not_le.mpr plain small
      rw [pushWidth, if_neg (ne _ (by decide)), if_neg (ne _ (by decide)), if_neg (ne _ (by decide))]
  have size := (eq_of_getOp read width).2
  refine List.length_eq_zero_iff.mp (size.trans ?_)
  rcases bare with rfl | plain
  · decide
  · exact if_neg (UInt8.not_le.mpr plain)

end CScript

namespace Solver

open CScript

/-- What may be a public key. -/
abbrev Sized (key : Bytes) : Prop := 33 ≤ key.length ∧ key.length ≤ 120

/-- The opcodes for small numbers. -/
def Small (opcode : UInt8) : Prop := opcode = 0 ∨ op1 ≤ opcode ∧ opcode ≤ op16

/-- `OP_1` to `OP_16`. -/
def opN (n : Nat) : UInt8 := UInt8.ofNat (n + 80)

/-- The grammars of the standard scripts, with what `Solver` returns for them. -/
inductive Template : TxnOutType → List Bytes → List Op → Prop
  | pubKey {opcode : UInt8} {key : Bytes} (sized : Sized key) :
      Template .pubKey [key] [(opcode, key), (opCheckSig, [])]
  | pubKeyHash {opcode : UInt8} {hash : Bytes} (sized : hash.length = 20) :
      Template .pubKeyHash [hash]
        [(opDup, []), (opHash160, []), (opcode, hash), (opEqualVerify, []), (opCheckSig, [])]
  | scriptHash {hash : Bytes} (sized : hash.length = 20) :
      Template .scriptHash [hash] [(opHash160, []), (20, hash), (opEqual, [])]
  | multisig {m n : Nat} {pushes : List Op} (required : 1 ≤ m ∧ m ≤ n ∧ n ≤ 16) (all : pushes.length = n)
      (sized : ∀ push ∈ pushes, Sized push.2) :
      Template .multisig ([UInt8.ofNat m] :: pushes.map Prod.snd ++ [[UInt8.ofNat n]])
        ((opN m, []) :: pushes ++ [(opN n, []), (opCheckMultiSig, [])])
  | nullData : Template .nullData [] [(opReturn, [])]

section Match

variable {fuel : Nat} {pc : CScript} {sols more : List Bytes} {opcode : UInt8} {data : Bytes}

theorem matchTemplate_nil : matchTemplate fuel pc [] sols = some more ↔ pc = [] ∧ sols = more := by
  cases pc with
  | nil => simp [matchTemplate]
  | cons byte pc =>
      cases fuel with
      | zero => simp [matchTemplate]
      | succ fuel => simp [matchTemplate, CScript.getOp]

theorem matchTemplate_cons {c : UInt8} {rest : CScript} (plain : opPushData4 < c) (single : c ≠ opPubKeys) :
    matchTemplate (fuel + 1) pc (c :: rest) sols = some more ↔
      ∃ op : Op, ∃ next found, getOp pc = some (op.1, op.2, next) ∧ matchOp op.1 op.2 c [] sols = some found ∧
        matchTemplate fuel next rest found = some more := by
  rw [matchTemplate, getOp_plain plain]
  · cases read : getOp pc with
    | none => simp
    | some first =>
        obtain ⟨opcode, data, next⟩ := first
        dsimp only
        rw [if_neg single, Option.bind_eq_some_iff]
        constructor
        · rintro ⟨found, fits, rest⟩
          exact ⟨(opcode, data), next, found, rfl, fits, rest⟩
        · rintro ⟨op, next', found, same, fits, rest⟩
          cases same
          exact ⟨found, fits, rest⟩
  · exact fun _ impossible => List.cons_ne_nil _ _ impossible

/-- An opcode of a template that stands for itself. -/
theorem matchOp_exact {c : UInt8} (exact : c ≠ opPubKey ∧ c ≠ opPubKeyHash ∧ c ≠ opSmallInteger) :
    matchOp opcode data c [] sols = some more ↔ opcode = c ∧ data = [] ∧ sols = more := by
  rw [matchOp, if_neg exact.1, if_neg exact.2.1, if_neg exact.2.2]
  split_ifs with other
  · refine ⟨fun impossible => (by cases impossible), fun same => ?_⟩
    exact absurd other (not_or.mpr ⟨not_not.mpr same.1, not_not.mpr same.2.1⟩)
  · obtain ⟨here, empty⟩ := not_or.mp other
    rw [Option.some_inj]
    exact ⟨fun same => ⟨not_not.mp here, not_not.mp empty, same⟩, fun same => same.2.2⟩

theorem matchOp_pubKey : matchOp opcode data opPubKey [] sols = some more ↔ Sized data ∧ sols ++ [data] = more := by
  rw [matchOp, if_pos rfl]
  split_ifs with other
  · refine ⟨fun impossible => (by cases impossible), fun same => ?_⟩
    obtain ⟨⟨lower, upper⟩, -⟩ := same
    omega
  · rw [Option.some_inj, Sized]
    refine ⟨fun same => ⟨by omega, same⟩, fun same => same.2⟩

theorem matchOp_pubKeyHash :
    matchOp opcode data opPubKeyHash [] sols = some more ↔ data.length = 20 ∧ sols ++ [data] = more := by
  rw [matchOp, if_neg (by decide), if_pos rfl]
  split_ifs with other
  · exact ⟨fun impossible => (by cases impossible), fun same => absurd same.1 other⟩
  · rw [Option.some_inj]
    exact ⟨fun same => ⟨not_not.mp other, same⟩, fun same => same.2⟩

theorem matchOp_small :
    matchOp opcode data opSmallInteger [] sols = some more ↔ Small opcode ∧ sols ++ [[decodeOpN opcode]] = more := by
  rw [matchOp, if_neg (by decide), if_neg (by decide), if_pos rfl, Small]
  split_ifs with small
  · rw [Option.some_inj]
    exact ⟨fun same => ⟨small, same⟩, fun same => same.2⟩
  · exact ⟨fun impossible => (by cases impossible), fun same => absurd same.1 small⟩

theorem matchTemplate_exact {c : UInt8} {rest : CScript} (plain : opPushData4 < c) (single : c ≠ opPubKeys)
    (exact : c ≠ opPubKey ∧ c ≠ opPubKeyHash ∧ c ≠ opSmallInteger) :
    matchTemplate (fuel + 1) pc (c :: rest) sols = some more ↔
      ∃ next, getOp pc = some (c, [], next) ∧ matchTemplate fuel next rest sols = some more := by
  rw [matchTemplate_cons plain single]
  constructor
  · rintro ⟨⟨_, _⟩, next, _, read, fits, rest⟩
    obtain ⟨rfl, rfl, rfl⟩ := (matchOp_exact exact).mp fits
    exact ⟨next, read, rest⟩
  · rintro ⟨next, read, rest⟩
    exact ⟨(c, []), next, sols, read, (matchOp_exact exact).mpr ⟨rfl, rfl, rfl⟩, rest⟩

/-- The opcodes at the end of a template stand for themselves. -/
theorem matchTemplate_tail {tail : CScript}
    (exact : tail.all (fun c => decide (opPushData4 < c ∧ c ≠ opPubKeys ∧ c ≠ opPubKey ∧ c ≠ opPubKeyHash ∧
      c ≠ opSmallInteger)) = true)
    (enough : tail.length ≤ fuel) :
    matchTemplate fuel pc tail sols = some more ↔ Parses pc (tail.map fun c => (c, [])) ∧ sols = more := by
  induction tail generalizing pc fuel with
  | nil => exact matchTemplate_nil.trans (and_congr_left' reads_nil.symm)
  | cons c tail ih =>
      rw [List.all_cons, Bool.and_eq_true, decide_eq_true_iff] at exact
      obtain ⟨⟨plain, single, own⟩, others⟩ := exact
      obtain ⟨fuel, rfl⟩ := Nat.exists_eq_add_of_le' ((Nat.succ_pos _).trans_le enough)
      rw [matchTemplate_exact plain single own, List.map_cons, Parses, reads_cons]
      have rest : ∀ next, matchTemplate fuel next tail sols = some more ↔ _ := fun next =>
        @ih fuel next others (Nat.le_of_succ_le_succ enough)
      constructor
      · rintro ⟨next, read, more⟩
        obtain ⟨parses, same⟩ := (rest next).mp more
        exact ⟨⟨next, read, parses⟩, same⟩
      · rintro ⟨⟨next, read, parses⟩, same⟩
        exact ⟨next, read, (rest next).mpr ⟨parses, same⟩⟩

end Match

theorem match_pubKey {script : CScript} {sols : List Bytes} :
    matchTemplate 2 script [opPubKey, opCheckSig] [] = some sols ↔
      ∃ opcode key, Parses script [(opcode, key), (opCheckSig, [])] ∧ Sized key ∧ sols = [key] := by
  rw [matchTemplate_cons (by decide) (by decide)]
  constructor
  · rintro ⟨⟨opcode, key⟩, next, found, read, fits, rest⟩
    obtain ⟨sized, rfl⟩ := matchOp_pubKey.mp fits
    obtain ⟨parses, rfl⟩ := (@matchTemplate_tail _ next _ sols [opCheckSig] (by decide) (by decide)).mp rest
    exact ⟨opcode, key, .cons read parses, sized, rfl⟩
  · rintro ⟨opcode, key, parses, sized, rfl⟩
    obtain ⟨next, read, rest⟩ := reads_cons.mp parses
    exact ⟨(opcode, key), next, [key], read, matchOp_pubKey.mpr ⟨sized, rfl⟩,
      (@matchTemplate_tail _ next _ _ [opCheckSig] (by decide) (by decide)).mpr ⟨rest, rfl⟩⟩

theorem match_pubKeyHash {script : CScript} {sols : List Bytes} :
    matchTemplate 5 script [opDup, opHash160, opPubKeyHash, opEqualVerify, opCheckSig] [] = some sols ↔
      ∃ opcode hash, Parses script
        [(opDup, []), (opHash160, []), (opcode, hash), (opEqualVerify, []), (opCheckSig, [])] ∧
        hash.length = 20 ∧ sols = [hash] := by
  rw [matchTemplate_exact (by decide) (by decide) (by decide)]
  constructor
  · rintro ⟨pc, dup, rest⟩
    obtain ⟨pc', hash160, rest⟩ := (matchTemplate_exact (by decide) (by decide) (by decide)).mp rest
    obtain ⟨⟨opcode, hash⟩, next, found, read, fits, rest⟩ :=
      (matchTemplate_cons (by decide) (by decide)).mp rest
    obtain ⟨sized, rfl⟩ := matchOp_pubKeyHash.mp fits
    obtain ⟨parses, rfl⟩ :=
      (@matchTemplate_tail _ next _ sols [opEqualVerify, opCheckSig] (by decide) (by decide)).mp rest
    exact ⟨opcode, hash, .cons dup (.cons hash160 (.cons read parses)), sized, rfl⟩
  · rintro ⟨opcode, hash, parses, sized, rfl⟩
    obtain ⟨pc, dup, rest⟩ := reads_cons.mp parses
    obtain ⟨pc', hash160, rest⟩ := reads_cons.mp rest
    obtain ⟨next, read, rest⟩ := reads_cons.mp rest
    refine ⟨pc, dup, (matchTemplate_exact (by decide) (by decide) (by decide)).mpr ⟨pc', hash160, ?_⟩⟩
    exact (matchTemplate_cons (by decide) (by decide)).mpr ⟨(opcode, hash), next, [hash], read,
      matchOp_pubKeyHash.mpr ⟨sized, rfl⟩,
      (@matchTemplate_tail _ next _ _ [opEqualVerify, opCheckSig] (by decide) (by decide)).mpr ⟨rest, rfl⟩⟩

theorem match_nullData {script : CScript} {sols : List Bytes} :
    matchTemplate 1 script [opReturn] [] = some sols ↔ Parses script [(opReturn, [])] ∧ [] = sols :=
  @matchTemplate_tail _ script _ _ [opReturn] (by decide) (by decide)

/-- The inner loop takes the pushes up to an operation that is no key. -/
theorem pushKeys_run {pushes : List Op} {last : Op} {fuel : Nat} {pc pc1 next : CScript} {first : Op}
    {sols : List Bytes} (read : getOp pc = some (first.1, first.2, next))
    (reads : Reads pc (pushes ++ [last]) pc1) (sized : ∀ push ∈ pushes, Sized push.2) (other : ¬ Sized last.2)
    (enough : pushes.length ≤ fuel) :
    pushKeys fuel (first.1, first.2, next) sols = ((last.1, last.2, pc1), sols ++ pushes.map Prod.snd) := by
  induction pushes generalizing pc first next fuel sols with
  | nil =>
      obtain ⟨next', read', rest⟩ := reads_cons.mp reads
      obtain rfl := reads_nil.mp rest
      obtain ⟨opcode, data, rfl⟩ := by simpa using read.symm.trans read'
      rw [opcode, data, List.map_nil, List.append_nil]
      cases fuel with
      | zero => rfl
      | succ fuel => rw [pushKeys, if_neg other]
  | cons push pushes ih =>
      obtain ⟨next', read', rest⟩ := reads_cons.mp reads
      obtain ⟨opcode, data, rfl⟩ := by simpa using read.symm.trans read'
      obtain ⟨fuel, rfl⟩ := Nat.exists_eq_add_of_le' ((Nat.succ_pos _).trans_le enough)
      have key : Sized first.2 := by
        rw [data]
        exact sized push List.mem_cons_self
      obtain ⟨op, next', second⟩ : ∃ op : Op, ∃ next', getOp next = some (op.1, op.2, next') := by
        cases pushes with
        | nil =>
            obtain ⟨next', second, -⟩ := reads_cons.mp rest
            exact ⟨last, next', second⟩
        | cons op pushes =>
            obtain ⟨next', second, -⟩ := reads_cons.mp rest
            exact ⟨op, next', second⟩
      rw [pushKeys, if_pos key, second]
      dsimp only
      rw [ih second rest (fun push member => sized push (List.mem_cons_of_mem _ member))
        (Nat.le_of_succ_le_succ enough), data, List.map_cons, List.append_assoc]
      rfl

/-- What the inner loop has taken are pushes of keys. -/
theorem pushKeys_reads {fuel : Nat} {pc next : CScript} {first : Op} {sols : List Bytes}
    (read : getOp pc = some (first.1, first.2, next)) (enough : next.length < fuel) :
    ∃ (pushes : List Op) (last : Op) (pc1 : CScript),
      pushKeys fuel (first.1, first.2, next) sols = ((last.1, last.2, pc1), sols ++ pushes.map Prod.snd) ∧
      (∀ push ∈ pushes, Sized push.2) ∧ (last.1 = opInvalidOpcode ∨ Reads pc (pushes ++ [last]) pc1) := by
  induction fuel generalizing pc first next sols with
  | zero => exact absurd enough (Nat.not_lt_zero _)
  | succ fuel ih =>
      rw [pushKeys]
      by_cases key : Sized first.2
      · rw [if_pos key]
        cases second : getOp next with
        | none =>
            exact ⟨[first], (opInvalidOpcode, []), next, rfl, fun push member => by
              rw [List.mem_singleton.mp member]
              exact key, .inl rfl⟩
        | some found =>
            obtain ⟨opcode, data, next'⟩ := found
            have shorter := length_of_getOp second
            obtain ⟨pushes, last, pc1, taken, sized, ends⟩ :=
              @ih next next' (opcode, data) (sols ++ [first.2]) second (by omega)
            refine ⟨first :: pushes, last, pc1, ?_, List.forall_mem_cons.mpr ⟨key, sized⟩,
              ends.imp_right (Reads.cons read)⟩
            refine taken.trans ?_
            rw [List.map_cons, List.append_assoc]
            rfl
      · rw [if_neg key]
        exact ⟨[], first, next, by rw [List.map_nil, List.append_nil], List.forall_mem_nil _,
          .inr (.cons read (.nil next))⟩

theorem Small.ne_invalid {opcode : UInt8} (small : Small opcode) : opcode ≠ opInvalidOpcode := by
  rintro rfl
  exact absurd small (by unfold Small; decide)

theorem Small.data {pc next : CScript} {opcode : UInt8} {data : Bytes} (small : Small opcode)
    (read : getOp pc = some (opcode, data, next)) : data = [] :=
  getOp_data read (small.imp_right fun range => UInt8.lt_of_lt_of_le (by decide) range.1)

theorem matchTemplate_pubKeys {fuel : Nat} {pc : CScript} {c : UInt8} {rest : CScript} {sols more : List Bytes}
    (plain : opPushData4 < c) :
    matchTemplate (fuel + 1) pc (opPubKeys :: c :: rest) sols = some more ↔
      ∃ first : Op, ∃ next, getOp pc = some (first.1, first.2, next) ∧
        ∃ last : Op, ∃ pc1 keys, pushKeys (pc.length + 1) (first.1, first.2, next) sols = ((last.1, last.2, pc1), keys) ∧
          ∃ found, matchOp last.1 last.2 c [] keys = some found ∧ matchTemplate fuel pc1 rest found = some more := by
  rw [matchTemplate, getOp_plain (by decide)]
  · cases read : getOp pc with
    | none => simp
    | some first =>
        obtain ⟨opcode, data, next⟩ := first
        dsimp only
        rw [if_pos rfl, getOp_plain plain]
        dsimp only
        rw [Option.bind_eq_some_iff]
        constructor
        · rintro ⟨found, fits, rest⟩
          exact ⟨(opcode, data), next, rfl, (_, _), _, _, rfl, found, fits, rest⟩
        · rintro ⟨first, next', same, last, pc1, keys, taken, found, fits, rest⟩
          cases same
          rw [taken]
          exact ⟨found, fits, rest⟩
  · exact fun _ impossible => List.cons_ne_nil _ _ impossible

theorem match_multisig {script : CScript} {sols : List Bytes} :
    matchTemplate 4 script [opSmallInteger, opPubKeys, opSmallInteger, opCheckMultiSig] [] = some sols ↔
      ∃ (opM opN : UInt8) (pushes : List Op), Small opM ∧ Small opN ∧ (∀ push ∈ pushes, Sized push.2) ∧
        Parses script ((opM, []) :: pushes ++ [(opN, []), (opCheckMultiSig, [])]) ∧
        sols = [decodeOpN opM] :: pushes.map Prod.snd ++ [[decodeOpN opN]] := by
  rw [matchTemplate_cons (by decide) (by decide)]
  constructor
  · rintro ⟨⟨opM, data⟩, pc, found, readM, fits, rest⟩
    obtain ⟨smallM, rfl⟩ := matchOp_small.mp fits
    obtain rfl := smallM.data readM
    obtain ⟨first, next, read, last, pc1, keys, taken, found, fits, rest⟩ :=
      (matchTemplate_pubKeys (by decide)).mp rest
    obtain ⟨smallN, rfl⟩ := matchOp_small.mp fits
    have shorter := length_of_getOp read
    obtain ⟨pushes, last', pc1', run, sized, ends⟩ :=
      @pushKeys_reads (pc.length + 1) pc next first [[decodeOpN opM]] read (by omega)
    obtain ⟨⟨opcode, data, rfl⟩, rfl⟩ := by simpa using taken.symm.trans run
    rw [opcode] at smallN
    obtain ⟨mid, front, back⟩ := reads_append.mp (ends.resolve_left smallN.ne_invalid)
    obtain ⟨pc1, readN, here⟩ := reads_cons.mp back
    obtain rfl := reads_nil.mp here
    have none := smallN.data readN
    obtain ⟨parses, rfl⟩ :=
      (@matchTemplate_tail _ pc1 _ sols [opCheckMultiSig] (by decide) (by decide)).mp rest
    refine ⟨opM, last'.1, pushes, smallM, smallN, sized, .cons readM (reads_append.mpr ⟨mid, front, ?_⟩),
      by rw [opcode]⟩
    rw [none] at readN
    exact .cons readN parses
  · rintro ⟨opM, opN, pushes, smallM, smallN, sized, parses, rfl⟩
    obtain ⟨pc, readM, rest⟩ := reads_cons.mp parses
    obtain ⟨mid, front, back⟩ := reads_append.mp rest
    obtain ⟨next, readN, last⟩ := reads_cons.mp back
    have keys : Reads pc (pushes ++ [(opN, [])]) next := reads_append.mpr ⟨mid, front, .cons readN (.nil next)⟩
    refine ⟨(opM, []), pc, _, readM, matchOp_small.mpr ⟨smallM, rfl⟩, (matchTemplate_pubKeys (by decide)).mpr ?_⟩
    obtain ⟨first, next', read⟩ : ∃ op : Op, ∃ next', getOp pc = some (op.1, op.2, next') := by
      cases pushes with
      | nil => exact ⟨_, _, (reads_cons.mp keys).choose_spec.1⟩
      | cons push pushes => exact ⟨_, _, (reads_cons.mp keys).choose_spec.1⟩
    have enough := keys.length_le
    rw [List.length_append] at enough
    refine ⟨first, next', read, (opN, []), next, _, pushKeys_run read keys sized ?_ (by omega), _,
      matchOp_small.mpr ⟨smallN, rfl⟩, ?_⟩
    · exact fun key => Nat.not_succ_le_zero 32 key.1
    · exact (@matchTemplate_tail _ next _ _ [opCheckMultiSig] (by decide) (by decide)).mpr ⟨last, rfl⟩

/-- The operations of a payment to a script are its bytes. -/
theorem parses_scriptHash {script : CScript} {hash : Bytes} :
    Parses script [(opHash160, []), (20, hash), (opEqual, [])] ↔
      hash.length = 20 ∧ script = opHash160 :: 20 :: (hash ++ [opEqual]) := by
  constructor
  · intro parses
    obtain ⟨pc, hash160, rest⟩ := reads_cons.mp parses
    obtain ⟨next, push, rest⟩ := reads_cons.mp rest
    obtain ⟨last, equal, rest⟩ := reads_cons.mp rest
    obtain rfl := reads_nil.mp rest
    obtain ⟨rfl, size⟩ := eq_of_getOp push (show pushWidth 20 = 0 by decide)
    exact ⟨size, by rw [(eq_of_getOp hash160 (by decide)).1, (eq_of_getOp equal (by decide)).1]; rfl⟩
  · rintro ⟨sized, rfl⟩
    refine .cons (getOp_plain (by decide) _) (.cons ?_ (.cons (getOp_plain (by decide) _) (.nil _)))
    have push := @getOp_pushData hash (by omega) [opEqual]
    rw [pushData, if_pos (by omega), sized] at push
    exact push

theorem isPayToScriptHash_iff {script : CScript} :
    script.isPayToScriptHash = true ↔ ∃ hash, Parses script [(opHash160, []), (20, hash), (opEqual, [])] := by
  simp only [isPayToScriptHash, Bool.and_eq_true, decide_eq_true_eq, parses_scriptHash]
  constructor
  · rintro ⟨⟨⟨size, hash160⟩, push⟩, equal⟩
    obtain ⟨first, second, rest, rfl⟩ : ∃ first second rest, script = first :: second :: rest := by
      rcases script with _ | ⟨first, _ | ⟨second, rest⟩⟩
      · cases size
      · cases size
      · exact ⟨first, second, rest, rfl⟩
    obtain rfl : first = opHash160 := by simpa using hash160
    obtain rfl : second = 20 := by simpa using push
    have short : rest.length = 21 := by simpa using size
    have last : rest.getLast? = some opEqual := by
      rw [List.getLast?_eq_getElem?, short]
      simpa using equal
    obtain ⟨hash, rfl⟩ := List.getLast?_eq_some_iff.mp last
    exact ⟨hash, by simpa using short, rfl⟩
  · rintro ⟨hash, sized, rfl⟩
    simp [sized]

theorem toNat_opN {n : Nat} (small : n ≤ 16) : (opN n).toNat = n + 80 := by
  rw [opN, UInt8.toNat_ofNat']
  omega

theorem small_opN {n : Nat} (positive : 1 ≤ n) (small : n ≤ 16) : Small (opN n) := by
  have value := toNat_opN small
  refine .inr ⟨?_, ?_⟩
  · rw [UInt8.le_iff_toNat_le, value]
    exact Nat.add_le_add_right positive 80
  · rw [UInt8.le_iff_toNat_le, value]
    exact Nat.add_le_add_right small 80

theorem toNat_decodeOpN {opcode : UInt8} (number : op1 ≤ opcode) : (decodeOpN opcode).toNat = opcode.toNat - 80 := by
  have large : 81 ≤ opcode.toNat := UInt8.le_iff_toNat_le.mp number
  have nonzero : opcode ≠ 0 := by
    rintro rfl
    cases large
  have above : op1 - 1 ≤ opcode := UInt8.le_iff_toNat_le.mpr ((show (op1 - 1).toNat ≤ 81 by decide).trans large)
  rw [decodeOpN, if_neg nonzero, UInt8.toNat_sub_of_le _ _ above]
  rfl

theorem decodeOpN_opN {n : Nat} (positive : 1 ≤ n) (small : n ≤ 16) : decodeOpN (opN n) = UInt8.ofNat n := by
  have value := toNat_opN small
  apply UInt8.toNat_inj.mp
  rw [toNat_decodeOpN (UInt8.le_iff_toNat_le.mpr (by rw [value]; exact Nat.add_le_add_right positive 80)), value,
    UInt8.toNat_ofNat']
  omega

/-- The opcode of a number that is not zero. -/
theorem Small.eq_opN {opcode : UInt8} (small : Small opcode) (positive : 1 ≤ (decodeOpN opcode).toNat) :
    opcode = opN (decodeOpN opcode).toNat ∧ (decodeOpN opcode).toNat ≤ 16 := by
  rcases small with rfl | ⟨lower, upper⟩
  · cases positive
  · rw [toNat_decodeOpN lower] at positive ⊢
    have upper : opcode.toNat ≤ 96 := UInt8.le_iff_toNat_le.mp upper
    have limit : opcode.toNat - 80 ≤ 16 := by omega
    refine ⟨UInt8.toNat_inj.mp ?_, limit⟩
    rw [toNat_opN limit]
    omega

section Templates

variable {script : CScript} {t : TxnOutType} {sols : List Bytes}

/-- The first template that fits decides. -/
theorem solver_first {front back : List (TxnOutType × CScript)} {tplate : TxnOutType × CScript}
    (split : mTemplates = front ++ tplate :: back) (other : ¬ script.isPayToScriptHash = true)
    (missed : ∀ earlier ∈ front, matchTemplate earlier.2.length script earlier.2 [] = none)
    (fits : matchTemplate tplate.2.length script tplate.2 [] = some sols) :
    solver script = (decide (tplate.1 ≠ .multisig) || multisigFits sols, tplate.1, sols) := by
  have found : (mTemplates.findSome? fun tplate =>
      (matchTemplate tplate.2.length script tplate.2 []).map (tplate.1, ·)) = some (tplate.1, sols) := by
    have none : (front.findSome? fun tplate =>
        (matchTemplate tplate.2.length script tplate.2 []).map (tplate.1, ·)) = none :=
      List.findSome?_eq_none_iff.mpr fun earlier member => by rw [missed earlier member]; rfl
    rw [split, List.findSome?_append, none, Option.none_or, List.findSome?_cons, fits]
    rfl
  rw [solver, if_neg other, found]

/-- What a template that fits returns. -/
theorem solver_template (other : ¬ script.isPayToScriptHash = true) (answer : solver script = (true, t, sols)) :
    ∃ tplate ∈ mTemplates, tplate.1 = t ∧ matchTemplate tplate.2.length script tplate.2 [] = some sols ∧
      (t = .multisig → multisigFits sols = true) := by
  rw [solver, if_neg other] at answer
  dsimp only at answer
  split at answer
  · cases answer
  · rename_i typeRet vSolutions found
    obtain ⟨fits, rfl, rfl⟩ := by simpa using answer
    obtain ⟨tplate, member, matched⟩ := List.exists_of_findSome?_eq_some found
    obtain ⟨sols, fits', same⟩ := Option.map_eq_some_iff.mp matched
    cases same
    exact ⟨tplate, member, rfl, fits', fun multisig => fits.resolve_left (absurd multisig)⟩

theorem multisigFits_eq {m n : UInt8} {keys : List Bytes} :
    multisigFits ([m] :: keys ++ [[n]]) = true ↔ 1 ≤ m.toNat ∧ m.toNat ≤ n.toNat ∧ keys.length = n.toNat := by
  rw [multisigFits, List.getLast?_append]
  simp
  omega

theorem template_of_solver (answer : solver script = (true, t, sols)) : ∃ ops, Parses script ops ∧ Template t sols ops := by
  by_cases p2sh : script.isPayToScriptHash = true
  · rw [solver, if_pos p2sh] at answer
    obtain ⟨hash, parses⟩ := isPayToScriptHash_iff.mp p2sh
    obtain ⟨sized, rfl⟩ := parses_scriptHash.mp parses
    cases answer
    refine ⟨_, parses, ?_⟩
    have taken : (((opHash160 :: 20 :: (hash ++ [opEqual])).drop 2).take 20) = hash := by
      rw [← sized]
      exact List.take_left
    rw [taken]
    exact .scriptHash sized
  · obtain ⟨tplate, member, rfl, fits, counts⟩ := solver_template p2sh answer
    simp only [mTemplates, List.mem_cons, List.not_mem_nil, or_false] at member
    rcases member with rfl | rfl | rfl | rfl
    · obtain ⟨opcode, key, parses, sized, rfl⟩ := match_pubKey.mp fits
      exact ⟨_, parses, .pubKey sized⟩
    · obtain ⟨opcode, hash, parses, sized, rfl⟩ := match_pubKeyHash.mp fits
      exact ⟨_, parses, .pubKeyHash sized⟩
    · obtain ⟨opM, opN', pushes, smallM, smallN, sized, parses, rfl⟩ := match_multisig.mp fits
      obtain ⟨positive, less, count⟩ := multisigFits_eq.mp (counts rfl)
      obtain ⟨eqM, -⟩ := smallM.eq_opN positive
      obtain ⟨eqN, limit⟩ := smallN.eq_opN (positive.trans less)
      rw [List.length_map] at count
      have template := Template.multisig ⟨positive, less, limit⟩ count sized
      rw [← eqM, ← eqN, UInt8.ofNat_toNat, UInt8.ofNat_toNat] at template
      exact ⟨_, parses, template⟩
    · obtain ⟨parses, rfl⟩ := match_nullData.mp fits
      exact ⟨_, parses, .nullData⟩

/-- A template that is for other operations does not fit. -/
theorem unmatched {fits : List Bytes → Prop} {found : Option (List Bytes)}
    (matched : ∀ {sols}, found = some sols → fits sols) (other : ∀ sols, ¬ fits sols) : found = none :=
  Option.eq_none_iff_forall_ne_some.mpr fun sols here => other sols (matched here)

theorem solver_of_template {ops : List Op} (parses : Parses script ops) (template : Template t sols ops) :
    solver script = (true, t, sols) := by
  have notScript : (∀ hash, ops ≠ [(opHash160, []), (20, hash), (opEqual, [])]) →
      ¬ script.isPayToScriptHash = true := fun other p2sh => by
    obtain ⟨hash, here⟩ := isPayToScriptHash_iff.mp p2sh
    exact other hash (parses.unique here)
  have notPubKey : (∀ opcode key, ops ≠ [(opcode, key), (opCheckSig, [])]) →
      matchTemplate 2 script [opPubKey, opCheckSig] [] = none := fun other =>
    unmatched match_pubKey.mp fun sols fits => by
      obtain ⟨opcode, key, here, -⟩ := fits
      exact other opcode key (parses.unique here)
  have notHash : (∀ opcode hash, ops ≠
      [(opDup, []), (opHash160, []), (opcode, hash), (opEqualVerify, []), (opCheckSig, [])]) →
      matchTemplate 5 script [opDup, opHash160, opPubKeyHash, opEqualVerify, opCheckSig] [] = none := fun other =>
    unmatched match_pubKeyHash.mp fun sols fits => by
      obtain ⟨opcode, hash, here, -⟩ := fits
      exact other opcode hash (parses.unique here)
  cases template with
  | @pubKey opcode key sized =>
      exact @solver_first _ _ [] _ (.pubKey, [opPubKey, opCheckSig]) rfl (notScript fun hash same => by cases same)
        (List.forall_mem_nil _) (match_pubKey.mpr ⟨opcode, key, parses, sized, rfl⟩)
  | @pubKeyHash opcode hash sized =>
      exact @solver_first _ _ (mTemplates.take 1) _ (.pubKeyHash, _) rfl (notScript fun hash same => by cases same)
        (List.forall_mem_singleton.mpr (notPubKey fun opcode key same => by cases same))
        (match_pubKeyHash.mpr ⟨opcode, hash, parses, sized, rfl⟩)
  | @scriptHash hash sized =>
      obtain ⟨-, rfl⟩ := parses_scriptHash.mp parses
      rw [solver, if_pos (isPayToScriptHash_iff.mpr ⟨hash, parses⟩)]
      have taken : (((opHash160 :: 20 :: (hash ++ [opEqual])).drop 2).take 20) = hash := by
        rw [← sized]
        exact List.take_left
      rw [taken]
  | @multisig m n pushes required all sized =>
      have value := @toNat_opN m (by omega)
      refine (@solver_first _ _ (mTemplates.take 2) _ (.multisig, _) rfl (notScript fun hash same => ?_) ?_
        (match_multisig.mpr ⟨opN m, opN n, pushes, small_opN required.1 (by omega), small_opN (by omega) required.2.2,
          sized, parses, rfl⟩)).trans ?_
      · have first : opN m = opHash160 := (Prod.ext_iff.mp (List.cons_eq_cons.mp same).1).1
        rw [first, show opHash160.toNat = 169 from rfl] at value
        omega
      · refine List.forall_mem_cons.mpr ⟨notPubKey fun opcode key same => ?_,
          List.forall_mem_singleton.mpr (notHash fun opcode hash same => ?_)⟩
        · have longer := congrArg List.length same
          simp at longer
        · have first : opN m = opDup := (Prod.ext_iff.mp (List.cons_eq_cons.mp same).1).1
          rw [first, show opDup.toNat = 118 from rfl] at value
          omega
      · rw [decodeOpN_opN required.1 (by omega), decodeOpN_opN (by omega) required.2.2,
          multisigFits_eq.mpr (by simp; omega)]
        rfl
  | nullData =>
      refine @solver_first _ _ (mTemplates.take 3) _ (.nullData, _) rfl (notScript fun hash same => by cases same) ?_
        (match_nullData.mpr ⟨parses, rfl⟩)
      refine List.forall_mem_cons.mpr ⟨notPubKey fun opcode key same => (by cases same), List.forall_mem_cons.mpr
        ⟨notHash fun opcode hash same => (by cases same), List.forall_mem_singleton.mpr ?_⟩⟩
      refine unmatched match_multisig.mp fun sols fits => ?_
      obtain ⟨opM, opN, pushes, -, -, -, here, -⟩ := fits
      have longer := congrArg List.length (parses.unique here)
      simp at longer

/-- `Solver` finds exactly the scripts of the templates. -/
theorem solver_eq_iff : solver script = (true, t, sols) ↔ ∃ ops, Parses script ops ∧ Template t sols ops :=
  ⟨template_of_solver, fun ⟨_, parses, template⟩ => solver_of_template parses template⟩

end Templates

end Solver

section Build

open Solver CScript

/-- `CScript::EncodeOP_N`, which asserts the range. -/
def CScript.encodeOpN (n : Int) : Option UInt8 :=
  if 0 ≤ n ∧ n ≤ 16 then some (if n = 0 then 0 else UInt8.ofNat (0x51 + n.toNat - 1)) else none

/-- `CScript::SetMultisig`, with the public keys of the keys. -/
def CScript.setMultisig (nRequired : Int) (keys : List Bytes) : Option CScript := do
  let first ← encodeOpN nRequired
  let last ← encodeOpN keys.length
  return keys.foldl (fun script key => script ++ pushData key) [first] ++ [last, opCheckMultiSig]

/-- `ExtractDestination`, with `addressRet` as it is passed and as it is returned. -/
def OwnerStore.extractDestinationInto (store : OwnerStore) (scriptPubKey : CScript) (addressRet : CTxDestination) :
    Bool × CTxDestination :=
  match store.extractDestination scriptPubKey with
  | none => (false, addressRet)
  | some address => (true, address)

theorem encodeOpN_eq {n : Nat} (positive : 1 ≤ n) (small : n ≤ 16) : encodeOpN n = some (opN n) := by
  rw [encodeOpN, if_pos ⟨Int.natCast_nonneg n, by omega⟩, if_neg (by omega), Int.toNat_natCast, opN]
  congr 2
  omega

theorem parses_pushes {keys : List Bytes} (sized : ∀ key ∈ keys, Solver.Sized key) (script pc : CScript) :
    ∃ pushed, keys.foldl (fun script key => script ++ pushData key) script = script ++ pushed ∧
      Reads (pushed ++ pc) (keys.map fun key => (pushOpcode key, key)) pc := by
  induction keys generalizing script with
  | nil => exact ⟨[], (List.append_nil _).symm, .nil pc⟩
  | cons key keys ih =>
      obtain ⟨limit, others⟩ := List.forall_mem_cons.mp sized
      obtain ⟨pushed, built, reads⟩ := ih others (script ++ pushData key)
      refine ⟨pushData key ++ pushed, ?_, ?_⟩
      · rw [List.foldl_cons, built, List.append_assoc]
      · rw [List.append_assoc]
        exact .cons (getOp_push (limit.2.trans (by decide)) _) reads

/-- `Solver` gets back what `SetMultisig` was given. -/
theorem solver_setMultisig {m : Nat} {keys : List Bytes} (required : 1 ≤ m ∧ m ≤ keys.length) (limit : keys.length ≤ 16)
    (sized : ∀ key ∈ keys, Solver.Sized key) :
    ∃ script, setMultisig m keys = some script ∧
      solver script = (true, .multisig, [UInt8.ofNat m] :: keys ++ [[UInt8.ofNat keys.length]]) := by
  obtain ⟨pushed, built, reads⟩ := parses_pushes sized [opN m] [opN keys.length, opCheckMultiSig]
  refine ⟨opN m :: (pushed ++ [opN keys.length, opCheckMultiSig]), ?_, ?_⟩
  · rw [setMultisig, encodeOpN_eq required.1 (required.2.trans limit), encodeOpN_eq (required.1.trans required.2) limit]
    exact congrArg (fun script => some (script ++ [opN keys.length, opCheckMultiSig])) built
  · have plain : ∀ n, 1 ≤ n → n ≤ 16 → opPushData4 < opN n := fun n positive small => by
      rw [UInt8.lt_iff_toNat_lt, toNat_opN small, show opPushData4.toNat = 78 from rfl]
      omega
    have parses : Parses (opN m :: (pushed ++ [opN keys.length, opCheckMultiSig]))
        ((opN m, []) :: (keys.map fun key => (pushOpcode key, key)) ++
          [(opN keys.length, []), (opCheckMultiSig, [])]) := by
      refine .cons (getOp_plain (plain m required.1 (required.2.trans limit)) _) (reads_append.mpr ⟨_, reads, ?_⟩)
      refine .cons (getOp_plain (plain _ (required.1.trans required.2) limit) _) ?_
      exact .cons (getOp_plain (by decide) _) (.nil _)
    have template := @Template.multisig m keys.length (keys.map fun key => (pushOpcode key, key))
      ⟨required.1, required.2, limit⟩ (List.length_map _) (by simpa using sized)
    rw [List.map_map, show Prod.snd ∘ (fun key : Bytes => (pushOpcode key, key)) = id from rfl, List.map_id] at template
    exact solver_of_template parses template

/-- A hash that was written comes back. -/
theorem ofNat_littleEndian (id : BitVec 160) : BitVec.ofNat 160 (littleEndian (littleEndianBytes 20 id.toNat)) = id := by
  rw [littleEndian_littleEndianBytes id.isLt, BitVec.ofNat_toNat, BitVec.setWidth_eq]

theorem solver_setDestination_keyID (id : BitVec 160) :
    solver (setDestination (.keyID id)) = (true, .pubKeyHash, [littleEndianBytes 20 id.toNat]) := by
  have sized : (littleEndianBytes 20 id.toNat).length = 20 := length_littleEndianBytes 20 id.toNat
  have parses : Parses (opDup :: opHash160 :: (pushData (littleEndianBytes 20 id.toNat) ++ [opEqualVerify, opCheckSig]))
      [(opDup, []), (opHash160, []), (pushOpcode (littleEndianBytes 20 id.toNat), littleEndianBytes 20 id.toNat),
        (opEqualVerify, []), (opCheckSig, [])] := by
    refine .cons (getOp_plain (by decide) _) (.cons (getOp_plain (by decide) _) (.cons (getOp_push (by omega) _) ?_))
    exact .cons (getOp_plain (by decide) _) (.cons (getOp_plain (by decide) _) (.nil _))
  exact solver_of_template parses (.pubKeyHash sized)

theorem solver_setDestination_scriptID (id : BitVec 160) :
    solver (setDestination (.scriptID id)) = (true, .scriptHash, [littleEndianBytes 20 id.toNat]) := by
  have sized : (littleEndianBytes 20 id.toNat).length = 20 := length_littleEndianBytes 20 id.toNat
  refine solver_of_template (parses_scriptHash.mpr ⟨sized, ?_⟩) (.scriptHash sized)
  rw [setDestination, pushData, if_pos (by omega), sized]
  rfl

/-- `ExtractDestination` gets back the destination, and a fresh `addressRet` stays without one where there is none. -/
theorem extractDestination_setDestination (store : OwnerStore) (dest : CTxDestination) :
    store.extractDestinationInto (setDestination dest) .none = (decide (dest ≠ .none), dest) := by
  cases dest with
  | none => rfl
  | keyID id =>
      rw [OwnerStore.extractDestinationInto, OwnerStore.extractDestination, solver_setDestination_keyID]
      exact Prod.ext rfl (congrArg CTxDestination.keyID (ofNat_littleEndian id))
  | scriptID id =>
      rw [OwnerStore.extractDestinationInto, OwnerStore.extractDestination, solver_setDestination_scriptID]
      exact Prod.ext rfl (congrArg CTxDestination.scriptID (ofNat_littleEndian id))

/-- The templates are recognised exactly, and what is put into them is found again. -/
theorem solver_exact :
    (∀ script t sols, solver script = (true, t, sols) ↔ ∃ ops, Parses script ops ∧ Solver.Template t sols ops) ∧
      (∀ (store : OwnerStore) dest,
        store.extractDestinationInto (setDestination dest) .none = (decide (dest ≠ .none), dest)) ∧
      ∀ (m : Nat) (keys : List Bytes), 1 ≤ m → m ≤ keys.length → keys.length ≤ 16 → (∀ key ∈ keys, Solver.Sized key) →
        ∃ script, setMultisig m keys = some script ∧
          solver script = (true, .multisig, [UInt8.ofNat m] :: keys ++ [[UInt8.ofNat keys.length]]) :=
  ⟨fun _ _ _ => solver_eq_iff, extractDestination_setDestination,
    fun _ _ positive most limit sized => solver_setMultisig ⟨positive, most⟩ limit sized⟩

theorem solver_exact_pair : ∃ script, setMultisig 1 [List.replicate 33 2, List.replicate 65 4] = some script ∧
    solver script = (true, .multisig, [[1], List.replicate 33 2, List.replicate 65 4, [2]]) :=
  solver_exact.2.2 1 [List.replicate 33 2, List.replicate 65 4] (by decide) (by decide) (by decide) (by decide)

end Build

end InfiniteRicks
