import InfiniteRicks.TxDb

/-!
# The abstract transaction index

What connecting and disconnecting are for, without the overlay, the batch and the
disk: an index is a partial map from transaction ids to entries, spending an
output writes one slot of one entry, and connecting a transaction spends its
inputs and adds its own entry. `replay` is the index of a whole list of
transactions; `Spendable` and `Valid` say that every spend met an unspent slot.
-/

namespace InfiniteRicks

/-- A transaction index. -/
abbrev TxIndexMap := UInt256 → Option CTxIndex

namespace Ledger

/-- The slot of output `n` of the transaction `hash`; `none` where there is none. -/
def slot (index : TxIndexMap) (hash : UInt256) (n : Nat) : Option CDiskTxPos :=
  (index hash).bind fun entry => entry.vSpent[n]?

/-- The slot an outpoint names. -/
def slotAt (index : TxIndexMap) (prevout : COutPoint) : Option CDiskTxPos :=
  slot index prevout.hash prevout.n.toNat

/-- Write one slot, where it exists. -/
def setSlot (index : TxIndexMap) (prevout : COutPoint) (pos : CDiskTxPos) : TxIndexMap :=
  Function.update index prevout.hash ((index prevout.hash).map fun entry =>
    { entry with vSpent := entry.vSpent.set prevout.n.toNat pos })

/-- Write the same position into the slots of several inputs, in order. -/
def setSlots (index : TxIndexMap) (vin : List CTxIn) (pos : CDiskTxPos) : TxIndexMap :=
  vin.foldl (fun index txin => setSlot index txin.prevout pos) index

/-- Every input finds its slot unspent when its turn comes. -/
def Spendable (pos : CDiskTxPos) : TxIndexMap → List CTxIn → Prop
  | _, [] => True
  | index, txin :: rest =>
      slotAt index txin.prevout = some CDiskTxPos.null ∧
        Spendable pos (setSlot index txin.prevout pos) rest

/-- The index after connecting one transaction stored at `pos`. -/
def applyTx (env : Env) (index : TxIndexMap) (tx : CTransaction) (pos : CDiskTxPos) : TxIndexMap :=
  Function.update (if tx.isCoinBase then index else setSlots index tx.vin pos) (env.txHash tx)
    (some (CTxIndex.new pos tx.vout.length))

/-- A transaction may be connected: each of its inputs is unspent. -/
def TxSpendable (index : TxIndexMap) (tx : CTransaction) (pos : CDiskTxPos) : Prop :=
  tx.isCoinBase = false → Spendable pos index tx.vin

/-- Connected transactions with their positions, newest first. -/
abbrev TxHistory := List (CTransaction × CDiskTxPos)

/-- The index of a history: connect its transactions one after the other. -/
def replay (env : Env) : TxHistory → TxIndexMap
  | [] => fun _ => none
  | (tx, pos) :: earlier => applyTx env (replay env earlier) tx pos

/-- The ids of a history. -/
def ids (env : Env) (history : TxHistory) : List UInt256 := history.map fun entry => env.txHash entry.1

/-- A history in which no id repeats and every spend met an unspent output. -/
def Valid (env : Env) : TxHistory → Prop
  | [] => True
  | (tx, pos) :: earlier =>
      env.txHash tx ∉ ids env earlier ∧ pos.isNull = false ∧
        TxSpendable (replay env earlier) tx pos ∧ Valid env earlier

section Slots

variable {index : TxIndexMap} {first second : COutPoint} {pos other : CDiskTxPos}

theorem setSlot_apply_ne {hash : UInt256} (ne : hash ≠ first.hash) :
    setSlot index first pos hash = index hash := by
  simp [setSlot, Function.update_of_ne ne]

theorem setSlot_apply_self (index : TxIndexMap) (prevout : COutPoint) (pos : CDiskTxPos) :
    setSlot index prevout pos prevout.hash = (index prevout.hash).map fun entry =>
      { entry with vSpent := entry.vSpent.set prevout.n.toNat pos } := by
  simp [setSlot]

/-- Writing a slot creates and removes no entry. -/
@[simp] theorem setSlot_isSome (index : TxIndexMap) (prevout : COutPoint) (pos : CDiskTxPos)
    (hash : UInt256) : (setSlot index prevout pos hash).isSome = (index hash).isSome := by
  by_cases same : hash = prevout.hash
  · subst same
    simp [setSlot_apply_self]
  · rw [setSlot_apply_ne same]

theorem setSlot_setSlot_self (index : TxIndexMap) (prevout : COutPoint) (pos other : CDiskTxPos) :
    setSlot (setSlot index prevout pos) prevout other = setSlot index prevout other := by
  simp only [setSlot, Function.update_self, Function.update_idem, Option.map_map]
  congr 2
  funext entry
  simp

theorem setSlot_comm (distinct : first ≠ second) :
    setSlot (setSlot index first pos) second other = setSlot (setSlot index second other) first pos := by
  by_cases same : first.hash = second.hash
  · have indices : first.n.toNat ≠ second.n.toNat := by
      intro equal
      apply distinct
      cases first
      cases second
      simp only [COutPoint.mk.injEq]
      exact ⟨same, UInt32.toNat_inj.mp equal⟩
    simp only [setSlot, same, Function.update_self, Function.update_idem, Option.map_map]
    congr 2
    funext entry
    simp [List.set_comm _ _ indices]
  · simp only [setSlot, Function.update_of_ne same, Function.update_of_ne (Ne.symm same)]
    exact Function.update_comm same _ _ _

theorem setSlot_eq_self {prevout : COutPoint} (holds : slotAt index prevout = some pos) :
    setSlot index prevout pos = index := by
  funext hash
  by_cases same : hash = prevout.hash
  · subst same
    rw [setSlot_apply_self]
    cases present : index prevout.hash with
    | none => rfl
    | some entry =>
        have stored : entry.vSpent[prevout.n.toNat]? = some pos := by
          simpa [slotAt, slot, present] using holds
        have unchanged : entry.vSpent.set prevout.n.toNat pos = entry.vSpent := by
          obtain ⟨bound, value⟩ := List.getElem?_eq_some_iff.mp stored
          rw [← value]
          exact List.set_getElem_self bound
        simp [unchanged]
  · exact setSlot_apply_ne same

theorem slotAt_setSlot_ne (distinct : first ≠ second) :
    slotAt (setSlot index second pos) first = slotAt index first := by
  by_cases same : first.hash = second.hash
  · have indices : second.n.toNat ≠ first.n.toNat := by
      intro equal
      apply distinct
      cases first
      cases second
      simp only [COutPoint.mk.injEq]
      exact ⟨same, (UInt32.toNat_inj.mp equal).symm⟩
    simp only [slotAt, slot, same, setSlot_apply_self, Option.bind_map]
    congr 1
    funext entry
    simp [List.getElem?_set_ne indices]
  · simp only [slotAt, slot, setSlot_apply_ne same]

theorem slotAt_setSlot_self {prevout : COutPoint} (present : (slotAt index prevout).isSome) :
    slotAt (setSlot index prevout pos) prevout = some pos := by
  simp only [slotAt, slot, setSlot_apply_self] at present ⊢
  cases found : index prevout.hash with
  | none => simp [found] at present
  | some entry =>
      have bound : prevout.n.toNat < entry.vSpent.length := by
        simpa [found] using present
      simp [bound]

end Slots

section Inputs

variable {index : TxIndexMap} {prevout : COutPoint} {pos other : CDiskTxPos} {vin : List CTxIn}

theorem setSlots_apply_ne {hash : UInt256} (ne : ∀ txin ∈ vin, hash ≠ txin.prevout.hash) :
    setSlots index vin pos hash = index hash := by
  induction vin generalizing index with
  | nil => rfl
  | cons txin rest ih =>
      have tail : setSlots (setSlot index txin.prevout pos) rest pos hash = setSlot index txin.prevout pos hash :=
        ih fun other member => ne other (List.mem_cons_of_mem _ member)
      exact tail.trans (setSlot_apply_ne (ne txin List.mem_cons_self))

/-- Spending elsewhere commutes with writing an entry. -/
theorem setSlots_update {hash : UInt256} {entry : Option CTxIndex}
    (ne : ∀ txin ∈ vin, hash ≠ txin.prevout.hash) :
    setSlots (Function.update index hash entry) vin pos =
      Function.update (setSlots index vin pos) hash entry := by
  induction vin generalizing index with
  | nil => rfl
  | cons txin rest ih =>
      have head := ne txin List.mem_cons_self
      have step : setSlot (Function.update index hash entry) txin.prevout pos =
          Function.update (setSlot index txin.prevout pos) hash entry := by
        simp only [setSlot, Function.update_of_ne head.symm]
        exact Function.update_comm head _ _ _
      change setSlots (setSlot (Function.update index hash entry) txin.prevout pos) rest pos = _
      rw [step]
      exact ih fun other member => ne other (List.mem_cons_of_mem _ member)

@[simp] theorem setSlots_isSome (index : TxIndexMap) (vin : List CTxIn) (pos : CDiskTxPos)
    (hash : UInt256) : (setSlots index vin pos hash).isSome = (index hash).isSome := by
  induction vin generalizing index with
  | nil => rfl
  | cons txin rest ih => exact (ih _).trans (setSlot_isSome _ _ _ _)

theorem setSlots_setSlot_comm (absent : prevout ∉ vin.map CTxIn.prevout) :
    setSlots (setSlot index prevout other) vin pos = setSlot (setSlots index vin pos) prevout other := by
  induction vin generalizing index with
  | nil => rfl
  | cons txin rest ih =>
      simp only [List.map_cons, List.mem_cons, not_or] at absent
      change setSlots (setSlot (setSlot index prevout other) txin.prevout pos) rest pos = _
      rw [setSlot_comm absent.1, ih absent.2]
      rfl

theorem slotAt_setSlots_of_notMem (absent : prevout ∉ vin.map CTxIn.prevout) :
    slotAt (setSlots index vin pos) prevout = slotAt index prevout := by
  induction vin generalizing index with
  | nil => rfl
  | cons txin rest ih =>
      simp only [List.map_cons, List.mem_cons, not_or] at absent
      exact (ih absent.2).trans (slotAt_setSlot_ne absent.1)

/-- An outpoint whose slot is taken is not among inputs that can be spent. -/
theorem Spendable.notMem_of_taken {taken : CDiskTxPos} (spendable : Spendable pos index vin)
    (holds : slotAt index prevout = some taken) (spent : taken.isNull = false) :
    prevout ∉ vin.map CTxIn.prevout := by
  induction vin generalizing index with
  | nil => simp
  | cons txin rest ih =>
      obtain ⟨unspent, tail⟩ := spendable
      have distinct : prevout ≠ txin.prevout := by
        rintro rfl
        rw [unspent, Option.some.injEq] at holds
        subst holds
        simp at spent
      have later := ih tail ((slotAt_setSlot_ne distinct).trans holds)
      simp only [List.map_cons, List.mem_cons, not_or]
      exact ⟨distinct, later⟩

/-- The first input does not come back: its slot is taken by then. -/
theorem Spendable.head_notMem {txin : CTxIn} {rest : List CTxIn} (real : pos.isNull = false)
    (spendable : Spendable pos index (txin :: rest)) : txin.prevout ∉ rest.map CTxIn.prevout :=
  spendable.2.notMem_of_taken (slotAt_setSlot_self (by simp [spendable.1])) real

theorem Spendable.nodup (real : pos.isNull = false) (spendable : Spendable pos index vin) :
    (vin.map CTxIn.prevout).Nodup := by
  induction vin generalizing index with
  | nil => simp
  | cons txin rest ih =>
      simp only [List.map_cons, List.nodup_cons]
      exact ⟨spendable.head_notMem real, ih spendable.2⟩

/-- Whether inputs can be spent does not depend on slots they do not name. -/
theorem Spendable.of_setSlot (absent : prevout ∉ vin.map CTxIn.prevout)
    (spendable : Spendable pos (setSlot index prevout other) vin) : Spendable pos index vin := by
  induction vin generalizing index with
  | nil => trivial
  | cons txin rest ih =>
      simp only [List.map_cons, List.mem_cons, not_or] at absent
      obtain ⟨unspent, tail⟩ := spendable
      refine ⟨(slotAt_setSlot_ne (Ne.symm absent.1)).symm.trans unspent, ih absent.2 ?_⟩
      rwa [setSlot_comm absent.1] at tail

/-- Spent inputs name unspent slots of the index they are spent in. -/
theorem Spendable.slotAt_null {txin : CTxIn} (real : pos.isNull = false)
    (spendable : Spendable pos index vin) (member : txin ∈ vin) :
    slotAt index txin.prevout = some CDiskTxPos.null := by
  induction vin generalizing index with
  | nil => simp at member
  | cons first rest ih =>
      rcases List.mem_cons.mp member with rfl | later
      · exact spendable.1
      · have absent := spendable.head_notMem real
        exact ih (spendable.2.of_setSlot absent) later

/-- After the spends every named slot holds the spender's position. -/
theorem Spendable.slotAt_setSlots {txin : CTxIn} (real : pos.isNull = false)
    (spendable : Spendable pos index vin) (member : txin ∈ vin) :
    slotAt (setSlots index vin pos) txin.prevout = some pos := by
  induction vin generalizing index with
  | nil => simp at member
  | cons first rest ih =>
      rcases List.mem_cons.mp member with rfl | later
      · change slotAt (setSlots (setSlot index txin.prevout pos) rest pos) txin.prevout = some pos
        rw [slotAt_setSlots_of_notMem (spendable.head_notMem real)]
        exact slotAt_setSlot_self (by simp [spendable.1])
      · exact ih spendable.2 later

/-- Nulling the spent slots again restores the index exactly. -/
theorem Spendable.unspend (real : pos.isNull = false) (spendable : Spendable pos index vin) :
    setSlots (setSlots index vin pos) vin CDiskTxPos.null = index := by
  induction vin generalizing index with
  | nil => rfl
  | cons txin rest ih =>
      have absent := spendable.head_notMem real
      have tail := spendable.2.of_setSlot absent
      change setSlots (setSlot (setSlots (setSlot index txin.prevout pos) rest pos) txin.prevout
        CDiskTxPos.null) rest CDiskTxPos.null = index
      rw [← setSlots_setSlot_comm absent, setSlot_setSlot_self, setSlot_eq_self spendable.1]
      exact ih tail

end Inputs

section Histories

variable {env : Env} {history : TxHistory} {prevout : COutPoint}

/-- The outpoints that a transaction consumes. -/
def spends (tx : CTransaction) : List COutPoint :=
  if tx.isCoinBase then [] else tx.vin.map CTxIn.prevout

/-- Every outpoint consumed in a history. -/
def consumed (history : TxHistory) : List COutPoint := history.flatMap fun entry => spends entry.1

theorem applyTx_isSome (index : TxIndexMap) (tx : CTransaction) (pos : CDiskTxPos) (hash : UInt256) :
    (applyTx env index tx pos hash).isSome ↔ hash = env.txHash tx ∨ (index hash).isSome := by
  unfold applyTx
  by_cases same : hash = env.txHash tx
  · simp [same]
  · rw [Function.update_of_ne same]
    split <;> simp [same]

/-- The index of a history has an entry for exactly its transactions. -/
theorem replay_isSome (hash : UInt256) : (replay env history hash).isSome ↔ hash ∈ ids env history := by
  induction history with
  | nil => simp [replay, ids]
  | cons entry earlier ih =>
      obtain ⟨tx, pos⟩ := entry
      rw [replay, applyTx_isSome, ih]
      simp [ids]

theorem slotAt_isSome_entry {index : TxIndexMap} {spent : CDiskTxPos}
    (holds : slotAt index prevout = some spent) : (index prevout.hash).isSome := by
  cases present : index prevout.hash with
  | none => simp [slotAt, slot, present] at holds
  | some entry => rfl

/-- A slot of the transaction just connected is unspent. -/
theorem slotAt_applyTx_self {index : TxIndexMap} {tx : CTransaction} {pos spent : CDiskTxPos}
    (own : prevout.hash = env.txHash tx) (holds : slotAt (applyTx env index tx pos) prevout = some spent) :
    spent = CDiskTxPos.null := by
  simp only [slotAt, slot, applyTx, own, Function.update_self, Option.bind_some, CTxIndex.new] at holds
  exact (List.mem_replicate.mp (List.mem_of_getElem? holds)).2

theorem slotAt_applyTx_ne {index : TxIndexMap} {tx : CTransaction} {pos : CDiskTxPos}
    (foreign : prevout.hash ≠ env.txHash tx) :
    slotAt (applyTx env index tx pos) prevout =
      slotAt (if tx.isCoinBase then index else setSlots index tx.vin pos) prevout := by
  simp only [slotAt, slot, applyTx, Function.update_of_ne foreign]

/-- A transaction that can be connected spends unspent slots of earlier ones. -/
theorem TxSpendable.slotAt_null {index : TxIndexMap} {tx : CTransaction} {pos : CDiskTxPos}
    (real : pos.isNull = false) (spendable : TxSpendable index tx pos) (member : prevout ∈ spends tx) :
    slotAt index prevout = some CDiskTxPos.null := by
  unfold spends at member
  split at member
  · simp at member
  · rename_i ordinary
    obtain ⟨txin, present, rfl⟩ := List.mem_map.mp member
    exact (spendable (by simpa using ordinary)).slotAt_null real present

/-- What the slot of an outpoint says after one more transaction. -/
theorem TxSpendable.slotAt_applyTx {index : TxIndexMap} {tx : CTransaction} {pos : CDiskTxPos}
    (real : pos.isNull = false) (spendable : TxSpendable index tx pos)
    (foreign : prevout.hash ≠ env.txHash tx) :
    slotAt (applyTx env index tx pos) prevout =
      if prevout ∈ spends tx then some pos else slotAt index prevout := by
  rw [slotAt_applyTx_ne foreign]
  by_cases base : tx.isCoinBase
  · simp [base, spends]
  · have inputs := spendable (by simpa using base)
    simp only [base, spends, Bool.false_eq_true, if_false]
    split
    · rename_i member
      obtain ⟨txin, present, rfl⟩ := List.mem_map.mp member
      exact inputs.slotAt_setSlots real present
    · rename_i absent
      exact slotAt_setSlots_of_notMem absent

/-- An outpoint with a slot in the earlier index does not belong to a fresh
transaction. -/
theorem hash_ne_of_slotAt {tx : CTransaction} {spent : CDiskTxPos} (fresh : env.txHash tx ∉ ids env history)
    (holds : slotAt (replay env history) prevout = some spent) : prevout.hash ≠ env.txHash tx := by
  intro same
  exact fresh (same ▸ (replay_isSome _).mp (slotAt_isSome_entry holds))

/-- Every transaction of a valid history has left its position in the slots of the
outpoints that it consumes. -/
theorem Valid.slotAt_of_spends {tx : CTransaction} {pos : CDiskTxPos} (valid : Valid env history)
    (member : (tx, pos) ∈ history) (consumes : prevout ∈ spends tx) :
    pos.isNull = false ∧ slotAt (replay env history) prevout = some pos := by
  induction history with
  | nil => simp at member
  | cons entry earlier ih =>
      obtain ⟨newest, place⟩ := entry
      obtain ⟨fresh, real, spendable, before⟩ := valid
      rcases List.mem_cons.mp member with same | past
      · obtain ⟨rfl, rfl⟩ := Prod.mk.inj same
        have foreign := hash_ne_of_slotAt fresh (spendable.slotAt_null real consumes)
        exact ⟨real, by rw [replay, spendable.slotAt_applyTx real foreign, if_pos consumes]⟩
      · obtain ⟨taken, holds⟩ := ih before past
        refine ⟨taken, ?_⟩
        -- The slot is taken, so the newest transaction did not spend it.
        have untouched : prevout ∉ spends newest := by
          intro again
          have unspent := spendable.slotAt_null real again
          rw [holds, Option.some.injEq] at unspent
          rw [unspent] at taken
          simp at taken
        rw [replay, spendable.slotAt_applyTx real (hash_ne_of_slotAt fresh holds), if_neg untouched]
        exact holds

theorem mem_consumed : prevout ∈ consumed history ↔
    ∃ tx pos, (tx, pos) ∈ history ∧ prevout ∈ spends tx := by
  simp [consumed]

/-- A slot of the index of a valid history is taken only where the outpoint is consumed. -/
theorem Valid.consumed_of_slotAt {spent : CDiskTxPos} (valid : Valid env history)
    (holds : slotAt (replay env history) prevout = some spent) (taken : spent.isNull = false) :
    prevout ∈ consumed history := by
  induction history with
  | nil => simp [replay, slotAt, slot] at holds
  | cons entry earlier ih =>
      obtain ⟨tx, pos⟩ := entry
      obtain ⟨fresh, real, spendable, before⟩ := valid
      rw [replay] at holds
      by_cases own : prevout.hash = env.txHash tx
      · rw [slotAt_applyTx_self own holds] at taken
        simp at taken
      · rw [spendable.slotAt_applyTx real own] at holds
        by_cases now : prevout ∈ spends tx
        · simp [consumed, now]
        · rw [if_neg now] at holds
          have past := ih before holds
          simp only [consumed, List.flatMap_cons, List.mem_append]
          exact Or.inr past

/-- No outpoint is consumed twice in a valid history. -/
theorem Valid.consumed_nodup (valid : Valid env history) : (consumed history).Nodup := by
  induction history with
  | nil => simp [consumed]
  | cons entry earlier ih =>
      obtain ⟨tx, pos⟩ := entry
      obtain ⟨fresh, real, spendable, before⟩ := valid
      change (spends tx ++ consumed earlier).Nodup
      refine List.nodup_append.mpr ⟨?_, ih before, ?_⟩
      · unfold spends
        split
        · exact List.nodup_nil
        · rename_i ordinary
          exact (spendable (by simpa using ordinary)).nodup real
      · rintro now member later consumedBefore rfl
        -- Consumed earlier means a taken slot; spendable now means a null one.
        have unspent := spendable.slotAt_null real member
        obtain ⟨spender, place, present, consumes⟩ := mem_consumed.mp consumedBefore
        obtain ⟨taken, holds⟩ := before.slotAt_of_spends present consumes
        rw [holds, Option.some.injEq] at unspent
        rw [unspent] at taken
        simp at taken

/-- Spending changes neither the position of an entry nor its number of slots. -/
theorem setSlots_shape (index : TxIndexMap) (vin : List CTxIn) (pos : CDiskTxPos) (hash : UInt256) :
    (setSlots index vin pos hash).map (fun entry => (entry.pos, entry.vSpent.length)) =
      (index hash).map fun entry => (entry.pos, entry.vSpent.length) := by
  induction vin generalizing index with
  | nil => rfl
  | cons txin rest ih =>
      refine (ih (setSlot index txin.prevout pos)).trans ?_
      by_cases same : hash = txin.prevout.hash
      · subst same
        simp only [setSlot_apply_self, Option.map_map]
        congr 1
        funext entry
        simp
      · rw [setSlot_apply_ne same]

/-- Every transaction of a valid history has its entry: its position, and one slot
for each output. -/
theorem Valid.entry_of_mem {tx : CTransaction} {pos : CDiskTxPos} (valid : Valid env history)
    (member : (tx, pos) ∈ history) :
    (replay env history (env.txHash tx)).map (fun entry => (entry.pos, entry.vSpent.length)) =
      some (pos, tx.vout.length) := by
  induction history with
  | nil => simp at member
  | cons entry earlier ih =>
      obtain ⟨newest, place⟩ := entry
      obtain ⟨fresh, real, spendable, before⟩ := valid
      rcases List.mem_cons.mp member with same | past
      · obtain ⟨rfl, rfl⟩ := Prod.mk.inj same
        simp [replay, applyTx, CTxIndex.new]
      · have distinct : env.txHash tx ≠ env.txHash newest := by
          intro same
          exact fresh (same ▸ List.mem_map_of_mem (f := fun entry => env.txHash entry.1) past)
        rw [replay, applyTx, Function.update_of_ne distinct]
        split
        · exact ih before past
        · rw [setSlots_shape]
          exact ih before past

end Histories

end Ledger

end InfiniteRicks
