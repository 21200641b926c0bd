import InfiniteRicks.BestChainSpec

/-!
# The two maps of the memory pool

`mapNextTx` is the mirror of `mapTx`: an outpoint is linked to the pool input that
spends it, and to no other. `remove` with `fRecursive` walks the links while it erases
them; what it leaves has lost a set of transactions that is closed under spending
(`Removal`). Ranks along the dependencies bound its depth.
-/

namespace InfiniteRicks

theorem CTransaction.nodup_of_checkDuplicateInputs {seen : List COutPoint} {vin : List CTxIn}
    (checked : checkDuplicateInputs seen vin = true) :
    (vin.map CTxIn.prevout).Nodup ∧ ∀ txin ∈ vin, txin.prevout ∉ seen := by
  induction vin generalizing seen with
  | nil => simp
  | cons txin rest ih =>
      simp only [checkDuplicateInputs] at checked
      split at checked
      · cases checked
      rename_i new
      obtain ⟨distinct, unseen⟩ := ih checked
      refine ⟨List.nodup_cons.mpr ⟨?_, distinct⟩, ?_⟩
      · intro repeated
        obtain ⟨other, member, same⟩ := List.mem_map.mp repeated
        exact unseen other member (same ▸ List.mem_cons_self)
      · intro other member
        rcases List.mem_cons.mp member with rfl | later
        · exact new
        · exact fun old => unseen other later (List.mem_cons_of_mem _ old)

/-- `CheckTransaction` refuses a transaction that spends an output twice. -/
theorem CTransaction.nodup_prevouts {tx : CTransaction} (wellFormed : tx.checkTransaction = true) :
    (tx.vin.map CTxIn.prevout).Nodup := by
  have checked : checkDuplicateInputs [] tx.vin = true := by
    by_contra refused
    rw [Bool.not_eq_true] at refused
    simp [checkTransaction, refused] at wellFormed
  exact (nodup_of_checkDuplicateInputs checked).1

/-- One transaction spends an output of another. -/
def Spends (env : Env) (child tx : CTransaction) : Prop :=
  ∃ txin ∈ child.vin, txin.prevout.hash = env.txHash tx ∧ txin.prevout.n.toNat < tx.vout.length

/-- The transactions that a pool may come to hold: hashes identify them, and ranks grow
along their dependencies. -/
structure TxUniverse (env : Env) (Known : CTransaction → Prop) (rank : CTransaction → Nat) : Prop where
  collisionFree : ∀ {tx other}, Known tx → Known other → env.txHash tx = env.txHash other → tx = other
  acyclic : ∀ {tx other txin}, Known tx → Known other → txin ∈ tx.vin → txin.prevout.hash = env.txHash other →
    rank other < rank tx

namespace CTxMemPool

/-- A pool of known transactions whose maps mirror each other. -/
structure Coherent (env : Env) (Known : CTransaction → Prop) (pool : CTxMemPool) : Prop where
  known : ∀ {hash tx}, pool.mapTx.lookup hash = some tx → Known tx
  keyed : ∀ {hash tx}, pool.mapTx.lookup hash = some tx → env.txHash tx = hash
  linked : ∀ {prevout hash n}, pool.mapNextTx prevout = some ⟨hash, n⟩ ↔
    ∃ tx, pool.mapTx.lookup hash = some tx ∧ (tx.vin[n]?).map CTxIn.prevout = some prevout

section Links

theorem linkInputs_of_notMem {hash : UInt256} {i : Nat} {vin : List CTxIn}
    {mapNextTx : COutPoint → Option CInPoint} {prevout : COutPoint} (absent : prevout ∉ vin.map CTxIn.prevout) :
    linkInputs hash i vin mapNextTx prevout = mapNextTx prevout := by
  induction vin generalizing i mapNextTx with
  | nil => rfl
  | cons txin rest ih =>
      simp only [List.map_cons, List.mem_cons, not_or] at absent
      rw [linkInputs, ih absent.2, Function.update_of_ne absent.1]

theorem linkInputs_of_getElem {hash : UInt256} {i k : Nat} {vin : List CTxIn}
    {mapNextTx : COutPoint → Option CInPoint} {prevout : COutPoint} (distinct : (vin.map CTxIn.prevout).Nodup)
    (found : (vin[k]?).map CTxIn.prevout = some prevout) :
    linkInputs hash i vin mapNextTx prevout = some ⟨hash, i + k⟩ := by
  induction vin generalizing i k mapNextTx with
  | nil => simp at found
  | cons txin rest ih =>
      obtain ⟨new, later⟩ := List.nodup_cons.mp distinct
      cases k with
      | zero =>
          simp only [List.getElem?_cons_zero, Option.map_some, Option.some.injEq] at found
          subst found
          rw [linkInputs, linkInputs_of_notMem new, Function.update_self, Nat.add_zero]
      | succ k =>
          rw [linkInputs, ih later (by simpa using found)]
          congr 2
          omega

theorem unlinkInputs_apply (mapNextTx : COutPoint → Option CInPoint) (vin : List CTxIn) (prevout : COutPoint) :
    unlinkInputs mapNextTx vin prevout = if prevout ∈ vin.map CTxIn.prevout then none else mapNextTx prevout := by
  induction vin generalizing mapNextTx with
  | nil => simp [unlinkInputs]
  | cons txin rest ih =>
      have step : unlinkInputs mapNextTx (txin :: rest) prevout =
          unlinkInputs (Function.update mapNextTx txin.prevout none) rest prevout := rfl
      rw [step, ih]
      by_cases same : prevout = txin.prevout
      · subst same
        simp
      · simp [same, Function.update_of_ne]

theorem mem_prevouts_iff {vin : List CTxIn} {prevout : COutPoint} :
    prevout ∈ vin.map CTxIn.prevout ↔ ∃ n : Nat, (vin[n]?).map CTxIn.prevout = some prevout := by
  rw [List.mem_iff_getElem?]
  simp only [List.getElem?_map]

theorem index_unique {vin : List CTxIn} {prevout : COutPoint} {n n' : Nat} (distinct : (vin.map CTxIn.prevout).Nodup)
    (input : (vin[n]?).map CTxIn.prevout = some prevout) (input' : (vin[n']?).map CTxIn.prevout = some prevout) :
    n = n' := by
  rw [← List.getElem?_map] at input input'
  obtain ⟨inside, -⟩ := List.getElem?_eq_some_iff.mp input
  exact (List.getElem?_inj inside distinct).mp (input.trans input'.symm)

end Links

section Coherence

variable {env : Env} {Known : CTransaction → Prop} {rank : CTransaction → Nat} {pool : CTxMemPool} {tx : CTransaction}

theorem coherent_empty : Coherent env Known empty := by
  refine ⟨?_, ?_, ?_⟩
  · intro hash tx found
    cases found
  · intro hash tx found
    cases found
  · intro prevout hash n
    simp [empty]

/-- An outpoint has one spender. -/
theorem Coherent.spender_unique (coherent : Coherent env Known pool) {hash hash' : UInt256} {other : CTransaction}
    {prevout : COutPoint} (found : pool.mapTx.lookup hash = some tx) (found' : pool.mapTx.lookup hash' = some other)
    (spends : prevout ∈ tx.vin.map CTxIn.prevout) (spends' : prevout ∈ other.vin.map CTxIn.prevout) :
    hash = hash' := by
  obtain ⟨n, input⟩ := mem_prevouts_iff.mp spends
  obtain ⟨n', input'⟩ := mem_prevouts_iff.mp spends'
  have link := coherent.linked.mpr ⟨tx, found, input⟩
  have link' := coherent.linked.mpr ⟨other, found', input'⟩
  rw [link] at link'
  exact congrArg CInPoint.ptx (Option.some.inj link')

/-- A known transaction is stored under its hash or its hash is free. -/
theorem Coherent.stored (family : TxUniverse env Known rank) (coherent : Coherent env Known pool) (known : Known tx)
    {other : CTransaction} (found : pool.mapTx.lookup (env.txHash tx) = some other) : other = tx :=
  family.collisionFree (coherent.known found) known (coherent.keyed found)

theorem Coherent.addUnchecked (family : TxUniverse env Known rank) (coherent : Coherent env Known pool)
    (known : Known tx) (distinct : (tx.vin.map CTxIn.prevout).Nodup)
    (unused : ∀ txin ∈ tx.vin, pool.mapNextTx txin.prevout = none) :
    Coherent env Known (pool.addUnchecked (env.txHash tx) tx) := by
  have unlinked : ∀ prevout ∈ tx.vin.map CTxIn.prevout, pool.mapNextTx prevout = none := by
    intro prevout member
    obtain ⟨txin, inside, rfl⟩ := List.mem_map.mp member
    exact unused txin inside
  have lookup : ∀ hash, (pool.mapTx.insert (env.txHash tx) tx).lookup hash =
      if hash = env.txHash tx then some tx else pool.mapTx.lookup hash := by
    intro hash
    split
    · rename_i same
      rw [same, AList.lookup_insert]
    · rename_i other
      rw [AList.lookup_insert_ne other]
  refine ⟨?_, ?_, ?_⟩
  · intro hash other found
    change (pool.mapTx.insert (env.txHash tx) tx).lookup hash = some other at found
    rw [lookup] at found
    split at found
    · cases found
      exact known
    · exact coherent.known found
  · intro hash other found
    change (pool.mapTx.insert (env.txHash tx) tx).lookup hash = some other at found
    rw [lookup] at found
    split at found
    · rename_i same
      cases found
      exact same.symm
    · exact coherent.keyed found
  · intro prevout hash n
    change linkInputs (env.txHash tx) 0 tx.vin pool.mapNextTx prevout = _ ↔
      ∃ other, (pool.mapTx.insert (env.txHash tx) tx).lookup hash = some other ∧ _
    rw [lookup]
    by_cases own : prevout ∈ tx.vin.map CTxIn.prevout
    · obtain ⟨k, input⟩ := mem_prevouts_iff.mp own
      rw [linkInputs_of_getElem distinct input, Nat.zero_add]
      constructor
      · intro link
        cases link
        exact ⟨tx, if_pos rfl, input⟩
      · rintro ⟨other, found, otherInput⟩
        split at found
        · rename_i same
          cases found
          have position := index_unique distinct input otherInput
          rw [same, position]
        · have link := coherent.linked.mpr ⟨other, found, otherInput⟩
          rw [unlinked prevout own] at link
          cases link
    · rw [linkInputs_of_notMem own, coherent.linked]
      constructor
      · rintro ⟨other, found, input⟩
        refine ⟨other, ?_, input⟩
        split
        · rename_i same
          obtain rfl := coherent.stored family known (same ▸ found)
          exact absurd (mem_prevouts_iff.mpr ⟨n, input⟩) own
        · exact found
      · rintro ⟨other, found, input⟩
        split at found
        · cases found
          exact absurd (mem_prevouts_iff.mpr ⟨n, input⟩) own
        · exact ⟨other, found, input⟩

theorem lookup_eraseTx (hash : UInt256) : (pool.eraseTx (env.txHash tx) tx).mapTx.lookup hash =
    if hash = env.txHash tx then none else pool.mapTx.lookup hash := by
  change (pool.mapTx.erase (env.txHash tx)).lookup hash = _
  split
  · rename_i same
    rw [same, AList.lookup_erase]
  · rename_i other
    rw [AList.lookup_erase_ne other]

theorem Coherent.eraseTx (coherent : Coherent env Known pool) (stored : pool.mapTx.lookup (env.txHash tx) = some tx) :
    Coherent env Known (pool.eraseTx (env.txHash tx) tx) := by
  refine ⟨?_, ?_, ?_⟩
  · intro hash other found
    rw [lookup_eraseTx] at found
    split at found
    · cases found
    · exact coherent.known found
  · intro hash other found
    rw [lookup_eraseTx] at found
    split at found
    · cases found
    · exact coherent.keyed found
  · intro prevout hash n
    change unlinkInputs pool.mapNextTx tx.vin prevout = _ ↔ _
    rw [lookup_eraseTx, unlinkInputs_apply]
    by_cases own : prevout ∈ tx.vin.map CTxIn.prevout
    · rw [if_pos own]
      refine iff_of_false (by simp) ?_
      rintro ⟨other, found, input⟩
      split at found
      · cases found
      · rename_i different
        exact different (coherent.spender_unique found stored (mem_prevouts_iff.mpr ⟨n, input⟩) own)
    · rw [if_neg own, coherent.linked]
      constructor
      · rintro ⟨other, found, input⟩
        refine ⟨other, ?_, input⟩
        split
        · rename_i same
          rw [same, stored] at found
          cases found
          exact absurd (mem_prevouts_iff.mpr ⟨n, input⟩) own
        · exact found
      · rintro ⟨other, found, input⟩
        split at found
        · cases found
        · exact ⟨other, found, input⟩

end Coherence

/-- A pool that has lost transactions of at least a rank, and with each of them every
transaction that spends an output of it. -/
structure Removal (env : Env) (Known : CTransaction → Prop) (rank : CTransaction → Nat) (pool : CTxMemPool)
    (bound : Nat) (after : CTxMemPool) : Prop where
  coherent : Coherent env Known after
  sub : ∀ {hash tx}, after.mapTx.lookup hash = some tx → pool.mapTx.lookup hash = some tx
  closed : ∀ {hash tx}, pool.mapTx.lookup hash = some tx → after.mapTx.lookup hash = none →
    ∀ {other child}, after.mapTx.lookup other = some child → ¬Spends env child tx
  above : ∀ {hash tx}, pool.mapTx.lookup hash = some tx → rank tx < bound → after.mapTx.lookup hash = some tx

/-- One step of the loop of `remove` over the outputs. -/
def removeChild (env : Env) (fuel : Nat) (hash : UInt256) (pool : CTxMemPool) (i : Nat) : CTxMemPool :=
  match pool.mapNextTx ⟨hash, UInt32.ofNat i⟩ with
  | none => pool
  | some inpoint =>
      match pool.mapTx.lookup inpoint.ptx with
      | none => pool
      | some child => removeFuel env fuel pool child true

theorem removeFuel_succ (env : Env) (fuel : Nat) (pool : CTxMemPool) (tx : CTransaction) (fRecursive : Bool) :
    removeFuel env (fuel + 1) pool tx fRecursive =
      if env.txHash tx ∈ pool.mapTx then
        (if fRecursive then (List.range tx.vout.length).foldl (removeChild env fuel (env.txHash tx)) pool
          else pool).eraseTx (env.txHash tx) tx
      else pool := rfl

section Recursion

variable {env : Env} {Known : CTransaction → Prop} {rank : CTransaction → Nat} {pool middle after : CTxMemPool}
  {tx : CTransaction} {bound : Nat}

theorem Removal.refl (coherent : Coherent env Known pool) (bound : Nat) : Removal env Known rank pool bound pool where
  coherent := coherent
  sub found := found
  closed found gone := by
    rw [found] at gone
    cases gone
  above found _ := found

theorem Removal.trans (first : Removal env Known rank pool bound middle)
    (second : Removal env Known rank middle bound after) : Removal env Known rank pool bound after where
  coherent := second.coherent
  sub found := first.sub (second.sub found)
  closed := by
    intro hash tx found gone other child stays
    cases between : middle.mapTx.lookup hash with
    | none => exact first.closed found between (second.sub stays)
    | some same =>
        obtain rfl := Option.some.inj (found.symm.trans (first.sub between))
        exact second.closed between gone stays
  above found low := second.above (first.above found low) low

theorem Removal.mono {lower : Nat} (removal : Removal env Known rank pool bound after) (below : lower ≤ bound) :
    Removal env Known rank pool lower after :=
  ⟨removal.coherent, removal.sub, removal.closed, fun found low => removal.above found (by omega)⟩

/-- No link appears. -/
theorem Removal.link (before : Coherent env Known pool) (removal : Removal env Known rank pool bound after)
    {prevout : COutPoint} {inpoint : CInPoint} (link : after.mapNextTx prevout = some inpoint) :
    pool.mapNextTx prevout = some inpoint := by
  obtain ⟨child, found, input⟩ := removal.coherent.linked.mp link
  exact before.linked.mpr ⟨child, removal.sub found, input⟩

/-- What one call of `remove` with `fRecursive` does to a coherent pool. -/
def Removes (env : Env) (Known : CTransaction → Prop) (rank : CTransaction → Nat) (tx : CTransaction)
    (pool after : CTxMemPool) : Prop :=
  Removal env Known rank pool (rank tx) after ∧ after.mapTx.lookup (env.txHash tx) = none

/-- The step of the loop for an output: its spender is removed. -/
theorem removal_removeChild {fuel i : Nat} (family : TxUniverse env Known rank) (coherent : Coherent env Known pool)
    (known : Known tx)
    (recursive : ∀ {child}, pool.mapTx.lookup (env.txHash child) = some child → Known child → rank tx < rank child →
      Removes env Known rank child pool (removeFuel env fuel pool child true)) :
    Removal env Known rank pool (rank tx + 1) (removeChild env fuel (env.txHash tx) pool i) ∧
      (removeChild env fuel (env.txHash tx) pool i).mapNextTx ⟨env.txHash tx, UInt32.ofNat i⟩ = none := by
  unfold removeChild
  cases link : pool.mapNextTx ⟨env.txHash tx, UInt32.ofNat i⟩ with
  | none => exact ⟨Removal.refl coherent _, link⟩
  | some inpoint =>
      obtain ⟨child, found, input⟩ := coherent.linked.mp link
      obtain ⟨txin, member, prevout⟩ := Option.map_eq_some_iff.mp input
      have higher : rank tx < rank child :=
        family.acyclic (coherent.known found) known (List.mem_of_getElem? member) (by rw [prevout])
      have key := coherent.keyed found
      obtain ⟨removal, gone⟩ := recursive (key ▸ found) (coherent.known found) higher
      simp only [found]
      refine ⟨removal.mono higher, ?_⟩
      cases still : (removeFuel env fuel pool child true).mapNextTx ⟨env.txHash tx, UInt32.ofNat i⟩ with
      | none => rfl
      | some other =>
          have same := removal.link coherent still
          rw [link] at same
          obtain rfl := Option.some.inj same
          obtain ⟨again, stays, -⟩ := removal.coherent.linked.mp still
          rw [← key, gone] at stays
          cases stays

/-- The whole loop over the outputs: nothing in the pool spends them any more. -/
theorem removal_loop {fuel m : Nat} (family : TxUniverse env Known rank) (coherent : Coherent env Known pool)
    (known : Known tx)
    (recursive : ∀ {now child}, Removal env Known rank pool (rank tx + 1) now →
      now.mapTx.lookup (env.txHash child) = some child → Known child → rank tx < rank child →
      Removes env Known rank child now (removeFuel env fuel now child true)) :
    Removal env Known rank pool (rank tx + 1)
        ((List.range m).foldl (removeChild env fuel (env.txHash tx)) pool) ∧
      ∀ i < m, ((List.range m).foldl (removeChild env fuel (env.txHash tx)) pool).mapNextTx
        ⟨env.txHash tx, UInt32.ofNat i⟩ = none := by
  induction m with
  | zero => exact ⟨Removal.refl coherent _, by simp⟩
  | succ m ih =>
      rw [List.range_succ, List.foldl_append]
      obtain ⟨soFar, cleared⟩ := ih
      obtain ⟨step, now⟩ := removal_removeChild (i := m) family soFar.coherent known
        (fun found knownChild higher => recursive soFar found knownChild higher)
      refine ⟨soFar.trans step, ?_⟩
      intro i below
      rcases Nat.lt_succ_iff_lt_or_eq.mp below with earlier | rfl
      · by_contra linked
        obtain ⟨inpoint, link⟩ := Option.ne_none_iff_exists'.mp linked
        have before := step.link soFar.coherent link
        rw [cleared i earlier] at before
        cases before
      · exact now

/-- Erasing a transaction whose outputs nothing in the pool spends. -/
theorem removal_eraseTx (rank : CTransaction → Nat) (coherent : Coherent env Known pool) (stored : pool.mapTx.lookup (env.txHash tx) = some tx)
    (cleared : ∀ i < tx.vout.length, pool.mapNextTx ⟨env.txHash tx, UInt32.ofNat i⟩ = none) :
    Removes env Known rank tx pool (pool.eraseTx (env.txHash tx) tx) := by
  have erased : ∀ {hash other}, (pool.eraseTx (env.txHash tx) tx).mapTx.lookup hash = some other →
      hash ≠ env.txHash tx ∧ pool.mapTx.lookup hash = some other := by
    intro hash other found
    rw [lookup_eraseTx] at found
    split at found
    · cases found
    · exact ⟨by assumption, found⟩
  refine ⟨⟨coherent.eraseTx stored, fun found => (erased found).2, ?_, ?_⟩, ?_⟩
  · intro hash gone found missing other child stays spends
    rw [lookup_eraseTx] at missing
    split at missing
    · rename_i same
      rw [same, stored] at found
      cases found
      obtain ⟨txin, member, hash, inside⟩ := spends
      have link : pool.mapNextTx txin.prevout = none := by
        have clear := cleared txin.prevout.n.toNat inside
        rw [UInt32.ofNat_toNat, ← hash] at clear
        exact clear
      obtain ⟨n, input⟩ := mem_prevouts_iff.mp (List.mem_map_of_mem (f := CTxIn.prevout) member)
      rw [coherent.linked.mpr ⟨child, (erased stays).2, input⟩] at link
      cases link
    · rw [found] at missing
      cases missing
  · intro hash other found low
    rw [lookup_eraseTx]
    split
    · rename_i same
      rw [same, stored] at found
      cases found
      omega
    · exact found
  · rw [lookup_eraseTx, if_pos rfl]

/-- How many of some transactions have a higher rank. -/
def higher (rank : CTransaction → Nat) (base : List CTransaction) (bound : Nat) : Nat :=
  base.countP fun tx => bound < rank tx

theorem higher_lt {base : List CTransaction} {child : CTransaction} (member : child ∈ base)
    (above : bound < rank child) : higher rank base (rank child) < higher rank base bound := by
  induction base with
  | nil => cases member
  | cons first rest ih =>
      have fewer : higher rank rest (rank child) ≤ higher rank rest bound := by
        apply List.countP_mono_left
        intro other _ more
        simp only [decide_eq_true_eq] at more ⊢
        omega
      simp only [higher, List.countP_cons, decide_eq_true_eq] at ih fewer ⊢
      rcases List.mem_cons.mp member with rfl | later
      · simp only [Nat.lt_irrefl, if_false, above, if_true]
        omega
      · have := ih later
        split <;> split <;> omega

/-- The children met by the loop stand on a higher rank, so that less fuel is enough
for them. -/
theorem higher_child {fuel : Nat} {base : List CTransaction} {child : CTransaction} {hash : UInt256}
    (inBase : ∀ {hash other}, pool.mapTx.lookup hash = some other → other ∈ base)
    (enough : higher rank base (rank tx) < fuel + 1) (found : pool.mapTx.lookup hash = some child)
    (above : rank tx < rank child) : higher rank base (rank child) < fuel := by
  have := higher_lt (inBase found) above
  omega

/-- With as much fuel as there are transactions of higher rank, `remove` removes the
transaction and everything that descends from it. -/
theorem removes_removeFuel {fuel : Nat} {base : List CTransaction} (family : TxUniverse env Known rank)
    (coherent : Coherent env Known pool) (known : Known tx)
    (inBase : ∀ {hash other}, pool.mapTx.lookup hash = some other → other ∈ base)
    (enough : higher rank base (rank tx) < fuel) :
    Removes env Known rank tx pool (removeFuel env fuel pool tx true) := by
  induction fuel generalizing pool tx with
  | zero => omega
  | succ fuel ih =>
      rw [removeFuel_succ, if_pos rfl]
      split
      · rename_i present
        obtain ⟨other, found⟩ := Option.isSome_iff_exists.mp (AList.lookup_isSome.mpr present)
        obtain rfl := coherent.stored family known found
        obtain ⟨loop, cleared⟩ := removal_loop (m := other.vout.length) family coherent known
          (fun removal foundChild knownChild above =>
            ih removal.coherent knownChild (fun inside => inBase (removal.sub inside))
              (higher_child inBase enough (removal.sub foundChild) above))
        obtain ⟨erased, gone⟩ := removal_eraseTx rank loop.coherent (loop.above found (Nat.lt_succ_self _))
          cleared
        exact ⟨(loop.mono (Nat.le_succ _)).trans erased, gone⟩
      · rename_i absent
        exact ⟨Removal.refl coherent _, AList.lookup_eq_none.mpr absent⟩

theorem removeChild_congr {fuel fuel' i : Nat} (family : TxUniverse env Known rank)
    (coherent : Coherent env Known pool) (known : Known tx)
    (same : ∀ hash child, pool.mapTx.lookup hash = some child → rank tx < rank child →
      removeFuel env fuel pool child true = removeFuel env fuel' pool child true) :
    removeChild env fuel (env.txHash tx) pool i = removeChild env fuel' (env.txHash tx) pool i := by
  unfold removeChild
  cases link : pool.mapNextTx ⟨env.txHash tx, UInt32.ofNat i⟩ with
  | none => rfl
  | some inpoint =>
      obtain ⟨child, found, input⟩ := coherent.linked.mp link
      obtain ⟨txin, member, prevout⟩ := Option.map_eq_some_iff.mp input
      simp only [found]
      refine same inpoint.ptx child found ?_
      exact family.acyclic (coherent.known found) known (List.mem_of_getElem? member) (by rw [prevout])

/-- The stored transactions. -/
def values (pool : CTxMemPool) : List CTransaction := pool.mapTx.entries.map Sigma.snd

theorem mem_values {hash : UInt256} (found : pool.mapTx.lookup hash = some tx) : tx ∈ pool.values := by
  have member := AList.mem_lookup_iff.mp (Option.mem_def.mpr found)
  exact List.mem_map.mpr ⟨⟨hash, tx⟩, member, rfl⟩

/-- More fuel changes nothing: the recursion has ended before the fuel does. -/
theorem removeFuel_stable {fuel fuel' : Nat} {base base' : List CTransaction} (family : TxUniverse env Known rank)
    (coherent : Coherent env Known pool) (known : Known tx)
    (inBase : ∀ {hash other}, pool.mapTx.lookup hash = some other → other ∈ base)
    (inBase' : ∀ {hash other}, pool.mapTx.lookup hash = some other → other ∈ base')
    (enough : higher rank base (rank tx) < fuel) (enough' : higher rank base' (rank tx) < fuel') (fRecursive : Bool) :
    removeFuel env fuel pool tx fRecursive = removeFuel env fuel' pool tx fRecursive := by
  induction fuel generalizing fuel' pool tx fRecursive with
  | zero => omega
  | succ fuel ih =>
      obtain ⟨fuel', rfl⟩ : ∃ less, fuel' = less + 1 := ⟨fuel' - 1, by omega⟩
      rw [removeFuel_succ, removeFuel_succ]
      cases fRecursive with
      | false => rfl
      | true =>
          have same : ∀ m, (List.range m).foldl (removeChild env fuel (env.txHash tx)) pool =
              (List.range m).foldl (removeChild env fuel' (env.txHash tx)) pool := by
            intro m
            induction m with
            | zero => rfl
            | succ m earlier =>
                have removal : Removal env Known rank pool (rank tx + 1)
                    ((List.range m).foldl (removeChild env fuel (env.txHash tx)) pool) :=
                  (removal_loop family coherent known fun removal foundChild knownChild above =>
                    removes_removeFuel family removal.coherent knownChild (fun inside => inBase (removal.sub inside))
                      (higher_child inBase enough (removal.sub foundChild) above)).1
                rw [List.range_succ, List.foldl_append, List.foldl_append, ← earlier]
                refine removeChild_congr family removal.coherent known ?_
                intro hash child found above
                exact ih removal.coherent (removal.coherent.known found) (fun inside => inBase (removal.sub inside))
                  (fun inside => inBase' (removal.sub inside))
                  (higher_child inBase enough (removal.sub found) above)
                  (higher_child inBase' enough' (removal.sub found) above) true
          rw [same]

theorem higher_values (rank : CTransaction → Nat) (pool : CTxMemPool) (bound : Nat) :
    higher rank pool.values bound < pool.mapTx.entries.length + 1 := by
  have counted : higher rank pool.values bound ≤ pool.values.length := List.countP_le_length
  have length : pool.values.length = pool.mapTx.entries.length := List.length_map ..
  omega

/-- The recursion of `remove` ends: every bound on its depth that is larger than the
pool gives the same result. -/
theorem remove_eq (family : TxUniverse env Known rank) (coherent : Coherent env Known pool) (known : Known tx)
    {fuel : Nat} (enough : pool.mapTx.entries.length < fuel) (fRecursive : Bool) :
    removeFuel env fuel pool tx fRecursive = pool.remove env tx fRecursive := by
  have counted := higher_values rank pool (rank tx)
  exact removeFuel_stable family coherent known mem_values mem_values (by omega) counted fRecursive

theorem removes_remove (family : TxUniverse env Known rank) (coherent : Coherent env Known pool) (known : Known tx) :
    Removes env Known rank tx pool (pool.remove env tx true) :=
  removes_removeFuel family coherent known mem_values (higher_values rank pool _)

/-- `remove` without `fRecursive` erases one transaction. -/
theorem Coherent.remove_false (family : TxUniverse env Known rank) (coherent : Coherent env Known pool)
    (known : Known tx) : Coherent env Known (pool.remove env tx false) := by
  rw [remove, removeFuel_succ]
  split
  · rename_i present
    obtain ⟨other, found⟩ := Option.isSome_iff_exists.mp (AList.lookup_isSome.mpr present)
    obtain rfl := coherent.stored family known found
    exact coherent.eraseTx found
  · exact coherent

theorem Coherent.remove (family : TxUniverse env Known rank) (coherent : Coherent env Known pool) (known : Known tx)
    (fRecursive : Bool) : Coherent env Known (pool.remove env tx fRecursive) := by
  cases fRecursive with
  | false => exact coherent.remove_false family known
  | true => exact (removes_remove family coherent known).1.coherent

/-- One input of `removeConflicts`. -/
def removeConflict (env : Env) (tx : CTransaction) (pool : CTxMemPool) (txin : CTxIn) : CTxMemPool :=
  match pool.mapNextTx txin.prevout with
  | none => pool
  | some inpoint =>
      match pool.mapTx.lookup inpoint.ptx with
      | none => pool
      | some txConflict => if txConflict ≠ tx then pool.remove env txConflict true else pool

theorem removal_removeConflict (family : TxUniverse env Known rank) (coherent : Coherent env Known pool)
    (tx : CTransaction) (txin : CTxIn) :
    Removal env Known rank pool 0 (removeConflict env tx pool txin) ∧
      ∀ {hash child}, (removeConflict env tx pool txin).mapTx.lookup hash = some child →
        txin.prevout ∈ child.vin.map CTxIn.prevout → child = tx := by
  unfold removeConflict
  cases link : pool.mapNextTx txin.prevout with
  | none =>
      refine ⟨Removal.refl coherent _, ?_⟩
      intro hash child found spends
      obtain ⟨n, input⟩ := mem_prevouts_iff.mp spends
      rw [coherent.linked.mpr ⟨child, found, input⟩] at link
      cases link
  | some inpoint =>
      obtain ⟨txConflict, found, input⟩ := coherent.linked.mp link
      have spends := mem_prevouts_iff.mpr ⟨inpoint.n, input⟩
      have key := coherent.keyed found
      simp only [found]
      split
      · obtain ⟨removal, gone⟩ := removes_remove family coherent (coherent.known found)
        refine ⟨removal.mono (Nat.zero_le _), ?_⟩
        intro hash child stays spendsToo
        have same := coherent.spender_unique (removal.sub stays) found spendsToo spends
        rw [same, ← key, gone] at stays
        cases stays
      · rename_i same
        rw [not_not] at same
        refine ⟨Removal.refl coherent _, ?_⟩
        intro hash child stays spendsToo
        have sameHash := coherent.spender_unique stays found spendsToo spends
        rw [sameHash, found] at stays
        exact (Option.some.inj stays).symm.trans same

/-- `removeConflicts` leaves no other transaction that spends an input of the given
one, and nothing that descends from what it removed. -/
theorem removal_removeConflicts (family : TxUniverse env Known rank) (coherent : Coherent env Known pool)
    (vin : List CTxIn) :
    Removal env Known rank pool 0 (vin.foldl (removeConflict env tx) pool) ∧
      ∀ txin ∈ vin, ∀ {hash child}, (vin.foldl (removeConflict env tx) pool).mapTx.lookup hash = some child →
        txin.prevout ∈ child.vin.map CTxIn.prevout → child = tx := by
  induction vin generalizing pool with
  | nil => exact ⟨Removal.refl coherent _, by simp⟩
  | cons txin rest ih =>
      obtain ⟨first, alone⟩ := removal_removeConflict family coherent tx txin
      obtain ⟨later, others⟩ := ih first.coherent
      refine ⟨first.trans later, ?_⟩
      intro input member hash child stays
      rcases List.mem_cons.mp member with rfl | inside
      · exact alone (later.sub stays)
      · exact others input inside stays

end Recursion

/-- A stored transaction that spends an output of the given one, or of a stored
transaction that descends from it. -/
inductive Descends (env : Env) (pool : CTxMemPool) (tx : CTransaction) : CTransaction → Prop
  | child {hash child} (stored : pool.mapTx.lookup hash = some child) (spends : Spends env child tx) :
      Descends env pool tx child
  | further {hash middle child} (descends : Descends env pool tx middle)
      (stored : pool.mapTx.lookup hash = some child) (spends : Spends env child middle) :
      Descends env pool tx child

theorem Descends.stored {env : Env} {pool : CTxMemPool} {tx child : CTransaction} (descends : Descends env pool tx child) :
    ∃ hash, pool.mapTx.lookup hash = some child := by
  cases descends with
  | child stored _ => exact ⟨_, stored⟩
  | further _ stored _ => exact ⟨_, stored⟩

/-- Nothing that stays descends from what was removed. -/
theorem Removal.not_descends {env : Env} {Known : CTransaction → Prop} {rank : CTransaction → Nat}
    {pool after : CTxMemPool} {bound : Nat} {hash : UInt256} {tx child : CTransaction}
    (removal : Removal env Known rank pool bound after) (found : pool.mapTx.lookup hash = some tx)
    (gone : after.mapTx.lookup hash = none) (descends : Descends env pool tx child) (other : UInt256) :
    after.mapTx.lookup other ≠ some child := by
  intro stays
  induction descends generalizing other with
  | child _ spends => exact removal.closed found gone stays spends
  | @further _ middle child descends _ spends ih =>
      obtain ⟨key, stored⟩ := descends.stored
      cases after_ : after.mapTx.lookup key with
      | none => exact removal.closed stored after_ stays spends
      | some same =>
          obtain rfl := Option.some.inj (stored.symm.trans (removal.sub after_))
          exact ih key after_

/-- Pools reached from the empty one by `AcceptToMemoryPool`, `addUnchecked`, `remove`,
`removeConflicts` and `clear`. -/
inductive PoolRun (env : Env) (policy : Policy) (Known : CTransaction → Prop) : CTxMemPool → Prop
  | start : PoolRun env policy Known empty
  | accept {s after tx} (earlier : PoolRun env policy Known s.mempool) (known : Known tx)
      (accepted : acceptToMemoryPool env policy s tx = some after) : PoolRun env policy Known after.mempool
  | add {pool tx} (earlier : PoolRun env policy Known pool) (known : Known tx)
      (distinct : (tx.vin.map CTxIn.prevout).Nodup) (unused : ∀ txin ∈ tx.vin, pool.mapNextTx txin.prevout = none) :
      PoolRun env policy Known (pool.addUnchecked (env.txHash tx) tx)
  | remove {pool tx} (earlier : PoolRun env policy Known pool) (known : Known tx) (fRecursive : Bool) :
      PoolRun env policy Known (pool.remove env tx fRecursive)
  | removeConflicts {pool} (earlier : PoolRun env policy Known pool) (tx : CTransaction) :
      PoolRun env policy Known (pool.removeConflicts env tx)
  | clear {pool} (earlier : PoolRun env policy Known pool) : PoolRun env policy Known pool.clear

theorem PoolRun.coherent {env : Env} {policy : Policy} {Known : CTransaction → Prop} {rank : CTransaction → Nat}
    {pool : CTxMemPool} (family : TxUniverse env Known rank) (run : PoolRun env policy Known pool) :
    Coherent env Known pool := by
  induction run with
  | start => exact coherent_empty
  | accept _ known accepted ih =>
      have passed := acceptToMemoryPool_cases accepted
      rw [passed.result]
      exact ih.addUnchecked family known (CTransaction.nodup_prevouts passed.wellFormed) passed.unlinked
  | add _ known distinct unused ih => exact ih.addUnchecked family known distinct unused
  | remove _ known fRecursive ih => exact ih.remove family known fRecursive
  | removeConflicts _ tx ih => exact (removal_removeConflicts family ih tx.vin).1.coherent
  | clear => exact coherent_empty

/-- In every pool reached, an outpoint is linked to a transaction and an index exactly
when the transaction is stored and spends the outpoint there; no two stored transactions
spend the same outpoint; `remove` with `fRecursive` and `removeConflicts` leave nothing
that descends from what they removed; and the recursion of `remove` ends, so that every
larger bound on its depth gives the same pool. -/
theorem pool_maps_mirror {env : Env} {policy : Policy} {Known : CTransaction → Prop} {rank : CTransaction → Nat}
    {pool : CTxMemPool} (family : TxUniverse env Known rank) (run : PoolRun env policy Known pool) :
    (∀ prevout hash n, pool.mapNextTx prevout = some ⟨hash, n⟩ ↔
      ∃ tx, pool.mapTx.lookup hash = some tx ∧ (tx.vin[n]?).map CTxIn.prevout = some prevout) ∧
    (∀ hash tx hash' other prevout, pool.mapTx.lookup hash = some tx → pool.mapTx.lookup hash' = some other →
      prevout ∈ tx.vin.map CTxIn.prevout → prevout ∈ other.vin.map CTxIn.prevout → hash = hash') ∧
    (∀ tx, Known tx → ∀ hash removed child other, pool.mapTx.lookup hash = some removed →
      (pool.remove env tx true).mapTx.lookup hash = none → Descends env pool removed child →
      (pool.remove env tx true).mapTx.lookup other ≠ some child) ∧
    (∀ tx hash removed child other, pool.mapTx.lookup hash = some removed →
      (pool.removeConflicts env tx).mapTx.lookup hash = none → Descends env pool removed child →
      (pool.removeConflicts env tx).mapTx.lookup other ≠ some child) ∧
    ∀ tx, Known tx → ∀ fRecursive fuel, pool.mapTx.entries.length < fuel →
      removeFuel env fuel pool tx fRecursive = pool.remove env tx fRecursive := by
  have coherent := run.coherent family
  refine ⟨?_, ?_, ?_, ?_, ?_⟩
  · intro prevout hash n
    exact coherent.linked
  · intro hash tx hash' other prevout found found' spends spends'
    exact coherent.spender_unique found found' spends spends'
  · intro tx known hash removed child other found gone descends
    exact (removes_remove family coherent known).1.not_descends found gone descends other
  · intro tx hash removed child other found gone descends
    exact (removal_removeConflicts family coherent tx.vin).1.not_descends found gone descends other
  · intro tx known fRecursive fuel enough
    exact remove_eq family coherent known enough fRecursive

section Concrete

/-- A transaction that spends an output of the chain, and one that spends its output. -/
def parentTx : CTransaction := .labelledSpend 1 0 ⟨7, 0⟩ 0

def childTx : CTransaction := .labelledSpend 2 0 ⟨1, 0⟩ 0

theorem pair_family : TxUniverse (Env.labelled true) (fun tx => tx = parentTx ∨ tx = childTx)
    (fun tx => tx.nLockTime.toNat) where
  collisionFree := by
    rintro tx other (rfl | rfl) (rfl | rfl) same
    · rfl
    · exact absurd same (by decide)
    · exact absurd same (by decide)
    · rfl
  acyclic := by
    rintro tx other txin (rfl | rfl) (rfl | rfl) member same
    · cases List.mem_singleton.mp member
      exact absurd same (by decide)
    · cases List.mem_singleton.mp member
      exact absurd same (by decide)
    · decide
    · cases List.mem_singleton.mp member
      exact absurd same (by decide)

/-- The pool of both, from which the parent is removed with what descends from it. -/
theorem pool_maps_mirror_pair :
    let pool := (empty.addUnchecked 1 parentTx).addUnchecked 2 childTx
    PoolRun (Env.labelled true) .lax (fun tx => tx = parentTx ∨ tx = childTx) pool ∧
      (pool.remove (Env.labelled true) parentTx true).mapTx.lookup 2 ≠ some childTx := by
  intro pool
  have first : PoolRun (Env.labelled true) .lax (fun tx => tx = parentTx ∨ tx = childTx)
      (empty.addUnchecked ((Env.labelled true).txHash parentTx) parentTx) :=
    .add .start (Or.inl rfl) (by decide) (by decide +kernel)
  have run : PoolRun (Env.labelled true) .lax (fun tx => tx = parentTx ∨ tx = childTx)
      ((empty.addUnchecked ((Env.labelled true).txHash parentTx) parentTx).addUnchecked
        ((Env.labelled true).txHash childTx) childTx) :=
    .add first (Or.inr rfl) (by decide) (by decide +kernel)
  refine ⟨run, (pool_maps_mirror pair_family run).2.2.1 parentTx (Or.inl rfl) 1 parentTx childTx 2 ?_ ?_ ?_⟩
  · decide +kernel
  · decide +kernel
  · have stored : pool.mapTx.lookup 2 = some childTx := by
      decide +kernel
    refine .child stored ⟨childTx.vin.head (by decide), List.head_mem _, ?_⟩
    decide +kernel

/-- A transaction that spends one output twice. -/
def doubleTx : CTransaction := { parentTx with vin := parentTx.vin ++ parentTx.vin }

/-- `addUnchecked` of a transaction whose inputs are not in `mapNextTx`, but which spends
one output twice: the first of the two inputs is not linked. -/
theorem double_input_unlinked :
    (Env.labelled true).txHash doubleTx = 1 ∧ (∀ txin ∈ doubleTx.vin, empty.mapNextTx txin.prevout = none) ∧
      (empty.addUnchecked 1 doubleTx).mapTx.lookup 1 = some doubleTx ∧
      (doubleTx.vin[0]?).map CTxIn.prevout = some ⟨7, 0⟩ ∧
      (empty.addUnchecked 1 doubleTx).mapNextTx ⟨7, 0⟩ ≠ some ⟨1, 0⟩ := by
  decide +kernel

end Concrete

end CTxMemPool

end InfiniteRicks
