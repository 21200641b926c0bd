import InfiniteRicks.Library.Assoc
import InfiniteRicks.Library.Runs
import InfiniteRicks.OrphanTx
import InfiniteRicks.PoolSupport
import Mathlib.Data.Finset.Card

/-!
# The index of orphan transactions

`Indexed` says that the two maps agree. It holds after every message. An empty set is
left in the index exactly where a transaction was accepted that no orphan waited for.
-/

namespace InfiniteRicks

/-- The transaction has an input from the hash. -/
def CTransaction.SpendsFrom (tx : CTransaction) (hashPrev : UInt256) : Prop :=
  ∃ txin ∈ tx.vin, txin.prevout.hash = hashPrev

namespace OrphanTxs

/-- The entry of the index. -/
def entry (s : OrphanTxs) (hashPrev : UInt256) : Option (List UInt256) := s.mapOrphanTransactionsByPrev.lookup hashPrev

/-- The orphan with the hash. -/
def orphan (s : OrphanTxs) (hash : UInt256) : Option CTransaction := s.mapOrphanTransactions.lookup hash

/-- The two maps agree. -/
structure Indexed (env : Env) (s : OrphanTxs) : Prop where
  keyed : ∀ {hash tx}, s.orphan hash = some tx → env.txHash tx = hash
  index : ∀ hashPrev hash, hash ∈ s.waiting hashPrev ↔ ∃ tx, s.orphan hash = some tx ∧ tx.SpendsFrom hashPrev

/-- The index contains no empty set. -/
def NoEmptySet (s : OrphanTxs) : Prop := ∀ hashPrev, s.entry hashPrev ≠ some []

theorem empty_indexed (env : Env) : empty.Indexed env :=
  ⟨nofun, fun _ _ => ⟨nofun, fun ⟨_, absent, _⟩ => nomatch absent⟩⟩

theorem waiting_eq (s : OrphanTxs) (hashPrev : UInt256) : s.waiting hashPrev = (s.entry hashPrev).getD [] := rfl

theorem entry_touch (s : OrphanTxs) (hashPrev other : UInt256) :
    (s.touch hashPrev).entry other = if other = hashPrev then some (s.waiting hashPrev) else s.entry other :=
  Library.Assoc.lookup_insert_eq _ _ _ _

theorem waiting_touch (s : OrphanTxs) (hashPrev other : UInt256) : (s.touch hashPrev).waiting other = s.waiting other := by
  rw [waiting_eq, entry_touch]
  split
  · rename_i same
    rw [same, Option.getD_some]
  · rfl

theorem mem_setInsert (hash other : UInt256) (hashes : List UInt256) :
    other ∈ setInsert hash hashes ↔ other ∈ hashes ∨ other = hash := by
  unfold setInsert
  split
  · rename_i present
    refine ⟨Or.inl, ?_⟩
    rintro (old | rfl)
    · exact old
    · exact present
  · rw [List.mem_orderedInsert]
    exact or_comm

theorem entry_link (s : OrphanTxs) (hash hashPrev other : UInt256) :
    (s.link hash hashPrev).entry other =
      if other = hashPrev then some (setInsert hash (s.waiting hashPrev)) else s.entry other :=
  Library.Assoc.lookup_insert_eq _ _ _ _

theorem entry_unlink (s : OrphanTxs) (hash hashPrev other : UInt256) :
    (s.unlink hash hashPrev).entry other =
      if other = hashPrev then
        if ((s.waiting hashPrev).filter (· ≠ hash)).isEmpty then none
        else some ((s.waiting hashPrev).filter (· ≠ hash))
      else s.entry other := by
  unfold entry unlink
  dsimp only
  by_cases alone : ((s.waiting hashPrev).filter (· ≠ hash)).isEmpty = true
  · rw [if_pos alone, if_pos alone, Library.Assoc.lookup_erase_eq]
  · rw [if_neg alone, if_neg alone, Library.Assoc.lookup_insert_eq]

theorem mem_waiting_link (s : OrphanTxs) (hash hashPrev : UInt256) (other otherPrev : UInt256) :
    other ∈ (s.link hash hashPrev).waiting otherPrev ↔
      other ∈ s.waiting otherPrev ∨ other = hash ∧ otherPrev = hashPrev := by
  rw [waiting_eq, entry_link]
  by_cases same : otherPrev = hashPrev
  · rw [if_pos same, Option.getD_some, mem_setInsert, same]
    simp
  · rw [if_neg same, ← waiting_eq]
    simp [same]

theorem emptySet_link (s : OrphanTxs) (hash hashPrev otherPrev : UInt256) :
    (s.link hash hashPrev).entry otherPrev = some [] ↔ s.entry otherPrev = some [] ∧ hashPrev ≠ otherPrev := by
  rw [entry_link]
  by_cases same : otherPrev = hashPrev
  · have member : hash ∈ setInsert hash (s.waiting hashPrev) := (mem_setInsert _ _ _).mpr (Or.inr rfl)
    simp [same, List.ne_nil_of_mem member]
  · simp [same, Ne.symm same]

theorem mem_waiting_unlink (s : OrphanTxs) (hash hashPrev : UInt256) (other otherPrev : UInt256) :
    other ∈ (s.unlink hash hashPrev).waiting otherPrev ↔
      other ∈ s.waiting otherPrev ∧ ¬ (other = hash ∧ otherPrev = hashPrev) := by
  have filtered : other ∈ (s.waiting hashPrev).filter (· ≠ hash) ↔ other ∈ s.waiting hashPrev ∧ ¬ other = hash := by
    rw [List.mem_filter, decide_eq_true_eq]
  rw [waiting_eq, entry_unlink]
  by_cases same : otherPrev = hashPrev
  · rw [if_pos same, same]
    simp only [and_true, ← filtered]
    split
    · rename_i alone
      rw [List.isEmpty_iff.mp alone]
      rfl
    · rw [Option.getD_some]
  · rw [if_neg same, ← waiting_eq]
    simp [same]

theorem emptySet_unlink (s : OrphanTxs) (hash hashPrev otherPrev : UInt256) :
    (s.unlink hash hashPrev).entry otherPrev = some [] ↔ s.entry otherPrev = some [] ∧ hashPrev ≠ otherPrev := by
  rw [entry_unlink]
  by_cases same : otherPrev = hashPrev
  · rw [if_pos same]
    split
    · simp [same]
    · rename_i some_
      simp only [same, ne_eq, not_true_eq_false, and_false, iff_false, Option.some.injEq]
      exact fun none => some_ (List.isEmpty_iff.mpr none)
  · simp [same, Ne.symm same]

section Inputs

variable (hash : UInt256) (vin : List CTxIn) (s : OrphanTxs)

theorem linkAll_orphan :
    (vin.foldl (fun s txin => s.link hash txin.prevout.hash) s).mapOrphanTransactions = s.mapOrphanTransactions := by
  induction vin generalizing s with
  | nil => rfl
  | cons txin rest ih => exact ih _

theorem mem_waiting_linkAll (other otherPrev : UInt256) :
    other ∈ (vin.foldl (fun s txin => s.link hash txin.prevout.hash) s).waiting otherPrev ↔
      other ∈ s.waiting otherPrev ∨ other = hash ∧ ∃ txin ∈ vin, txin.prevout.hash = otherPrev := by
  induction vin generalizing s with
  | nil => simp
  | cons txin rest ih =>
      rw [List.foldl_cons, ih, mem_waiting_link]
      simp only [List.mem_cons, exists_eq_or_imp]
      constructor
      · rintro ((old | ⟨rfl, rfl⟩) | ⟨rfl, later⟩)
        · exact Or.inl old
        · exact Or.inr ⟨rfl, Or.inl rfl⟩
        · exact Or.inr ⟨rfl, Or.inr later⟩
      · rintro (old | ⟨rfl, rfl | later⟩)
        · exact Or.inl (Or.inl old)
        · exact Or.inl (Or.inr ⟨rfl, rfl⟩)
        · exact Or.inr ⟨rfl, later⟩

theorem emptySet_linkAll (otherPrev : UInt256) :
    (vin.foldl (fun s txin => s.link hash txin.prevout.hash) s).entry otherPrev = some [] ↔
      s.entry otherPrev = some [] ∧ ¬ ∃ txin ∈ vin, txin.prevout.hash = otherPrev := by
  induction vin generalizing s with
  | nil => simp
  | cons txin rest ih =>
      rw [List.foldl_cons, ih, emptySet_link]
      simp only [List.mem_cons, exists_eq_or_imp, not_or, and_assoc, ne_eq]

theorem unlinkAll_orphan :
    (vin.foldl (fun s txin => s.unlink hash txin.prevout.hash) s).mapOrphanTransactions = s.mapOrphanTransactions := by
  induction vin generalizing s with
  | nil => rfl
  | cons txin rest ih => exact ih _

theorem mem_waiting_unlinkAll (other otherPrev : UInt256) :
    other ∈ (vin.foldl (fun s txin => s.unlink hash txin.prevout.hash) s).waiting otherPrev ↔
      other ∈ s.waiting otherPrev ∧ ¬ (other = hash ∧ ∃ txin ∈ vin, txin.prevout.hash = otherPrev) := by
  induction vin generalizing s with
  | nil => simp
  | cons txin rest ih =>
      rw [List.foldl_cons, ih, mem_waiting_unlink]
      simp only [List.mem_cons, exists_eq_or_imp]
      constructor
      · rintro ⟨⟨old, first⟩, later⟩
        refine ⟨old, ?_⟩
        rintro ⟨rfl, rfl | more⟩
        · exact first ⟨rfl, rfl⟩
        · exact later ⟨rfl, more⟩
      · rintro ⟨old, none⟩
        refine ⟨⟨old, ?_⟩, ?_⟩
        · rintro ⟨rfl, rfl⟩
          exact none ⟨rfl, Or.inl rfl⟩
        · rintro ⟨rfl, more⟩
          exact none ⟨rfl, Or.inr more⟩

theorem emptySet_unlinkAll (otherPrev : UInt256) :
    (vin.foldl (fun s txin => s.unlink hash txin.prevout.hash) s).entry otherPrev = some [] ↔
      s.entry otherPrev = some [] ∧ ¬ ∃ txin ∈ vin, txin.prevout.hash = otherPrev := by
  induction vin generalizing s with
  | nil => simp
  | cons txin rest ih =>
      rw [List.foldl_cons, ih, emptySet_unlink]
      simp only [List.mem_cons, exists_eq_or_imp, not_or, and_assoc, ne_eq]

end Inputs

section Maps

variable {env : Env} {s : OrphanTxs}

theorem Indexed.waiting_ne_nil (indexed : s.Indexed env) {hash hashPrev : UInt256} {tx : CTransaction}
    (known : s.orphan hash = some tx) (spends : tx.SpendsFrom hashPrev) : s.waiting hashPrev ≠ [] :=
  List.ne_nil_of_mem ((indexed.index hashPrev hash).mpr ⟨tx, known, spends⟩)

/-- What `EraseOrphanTx` leaves. -/
theorem eraseOrphanTx_orphan (hash other : UInt256) :
    (s.eraseOrphanTx hash).orphan other = if other = hash then none else s.orphan other := by
  unfold eraseOrphanTx orphan
  cases known : s.mapOrphanTransactions.lookup hash with
  | none =>
      dsimp only
      split
      · rename_i same
        rw [same, known]
      · rfl
  | some tx =>
      dsimp only
      rw [unlinkAll_orphan, Library.Assoc.lookup_erase_eq]

theorem Indexed.erase (indexed : s.Indexed env) (hash : UInt256) : (s.eraseOrphanTx hash).Indexed env := by
  constructor
  · intro other tx found
    rw [eraseOrphanTx_orphan] at found
    split at found
    · cases found
    · exact indexed.keyed found
  · intro hashPrev other
    simp only [eraseOrphanTx_orphan]
    have before := indexed.index hashPrev other
    cases known : s.mapOrphanTransactions.lookup hash with
    | none =>
        have same : s.eraseOrphanTx hash = s := by rw [eraseOrphanTx, known]
        rw [same, before]
        constructor
        · rintro ⟨tx, found, spends⟩
          refine ⟨tx, ?_, spends⟩
          rw [if_neg, found]
          rintro rfl
          cases known.symm.trans found
        · rintro ⟨tx, found, spends⟩
          split at found
          · cases found
          · exact ⟨tx, found, spends⟩
    | some tx =>
        have member : other ∈ (s.eraseOrphanTx hash).waiting hashPrev ↔
            other ∈ s.waiting hashPrev ∧ ¬ (other = hash ∧ tx.SpendsFrom hashPrev) := by
          rw [eraseOrphanTx, known]
          exact mem_waiting_unlinkAll hash tx.vin s other hashPrev
        rw [member, before]
        constructor
        · rintro ⟨⟨found, here, spends⟩, other_⟩
          refine ⟨found, ?_, spends⟩
          rw [if_neg, here]
          rintro rfl
          obtain rfl := Option.some.inj (known.symm.trans here)
          exact other_ ⟨rfl, spends⟩
        · rintro ⟨found, here, spends⟩
          split at here
          · cases here
          · rename_i different
            exact ⟨⟨found, here, spends⟩, fun both => different both.1⟩

theorem Indexed.emptySet_erase (indexed : s.Indexed env) (hash hashPrev : UInt256) :
    (s.eraseOrphanTx hash).entry hashPrev = some [] ↔ s.entry hashPrev = some [] := by
  unfold eraseOrphanTx
  cases known : s.mapOrphanTransactions.lookup hash with
  | none => rfl
  | some tx =>
      refine (emptySet_unlinkAll hash tx.vin s hashPrev).trans (and_iff_left_of_imp ?_)
      intro none spends
      exact indexed.waiting_ne_nil known spends (by rw [waiting_eq, none, Option.getD_some])

theorem size_erase (hash : UInt256) :
    (s.eraseOrphanTx hash).size = if (s.orphan hash).isSome then s.size - 1 else s.size := by
  unfold eraseOrphanTx orphan size
  cases known : s.mapOrphanTransactions.lookup hash with
  | none => rfl
  | some tx =>
      have member : hash ∈ s.mapOrphanTransactions.keys := by
        rw [← AList.mem_keys, ← AList.lookup_isSome, known]
        rfl
      dsimp only
      rw [unlinkAll_orphan, AList.keys_erase, List.length_erase_of_mem member]
      rfl

theorem Indexed.add (indexed : s.Indexed env) (tx : CTransaction) : (s.addOrphanTx env tx).Indexed env := by
  unfold addOrphanTx
  dsimp only
  split
  · exact indexed
  rename_i absent
  split
  · exact indexed
  have orphans : ∀ other, (tx.vin.foldl (fun (s : OrphanTxs) txin => s.link (env.txHash tx) txin.prevout.hash)
      { s with mapOrphanTransactions := s.mapOrphanTransactions.insert (env.txHash tx) tx }).orphan other =
        if other = env.txHash tx then some tx else s.orphan other := by
    intro other
    rw [orphan, linkAll_orphan, Library.Assoc.lookup_insert_eq]
    rfl
  constructor
  · intro other found
    rw [orphans]
    split
    · rename_i same
      rintro ⟨⟩
      exact same.symm
    · exact indexed.keyed
  · intro hashPrev other
    simp only [orphans]
    rw [mem_waiting_linkAll]
    have before := indexed.index hashPrev other
    change other ∈ s.waiting hashPrev ∨ _ ↔ _
    rw [before]
    constructor
    · rintro (⟨found, here, spends⟩ | ⟨rfl, spends⟩)
      · refine ⟨found, ?_, spends⟩
        rw [if_neg, here]
        rintro rfl
        exact absent (Option.isSome_of_eq_some here)
      · exact ⟨tx, if_pos rfl, spends⟩
    · rintro ⟨found, here, spends⟩
      split at here
      · rename_i same
        cases here
        exact Or.inr ⟨same, spends⟩
      · exact Or.inl ⟨found, here, spends⟩

theorem NoEmptySet.add (none : s.NoEmptySet) (tx : CTransaction) : (s.addOrphanTx env tx).NoEmptySet := by
  unfold addOrphanTx
  dsimp only
  split
  · exact none
  split
  · exact none
  · exact fun hashPrev found => none hashPrev ((emptySet_linkAll _ _ _ _).mp found).1

theorem mem_least {hashes : List UInt256} {hash : UInt256} (found : least hashes = some hash) : hash ∈ hashes := by
  cases hashes with
  | nil => cases found
  | cons first rest =>
      obtain rfl := Option.some.inj found
      have either : ∀ (rest : List UInt256) (first : UInt256),
          rest.foldl (fun a b => if b < a then b else a) first ∈ first :: rest := by
        intro rest
        induction rest with
        | nil => exact fun first => List.mem_singleton_self first
        | cons next rest ih =>
            intro first
            rw [List.foldl_cons]
            split
            · exact List.mem_cons_of_mem first (ih next)
            · rcases List.mem_cons.mp (ih first) with same | later
              · exact List.mem_cons.mpr (Or.inl same)
              · exact List.mem_cons_of_mem first (List.mem_cons_of_mem next later)
      exact either rest first

theorem least_isSome {hashes : List UInt256} (nonempty : hashes ≠ []) : ∃ hash, least hashes = some hash := by
  cases hashes with
  | nil => exact absurd rfl nonempty
  | cons first rest => exact ⟨_, rfl⟩

/-- An orphan can be drawn, and it is one of the map. -/
theorem victim_mem (some_ : 0 < s.size) (randomhash : UInt256) :
    ∃ hash, s.victim randomhash = some hash ∧ (s.orphan hash).isSome = true := by
  have inMap : ∀ {hash}, hash ∈ s.mapOrphanTransactions.keys → (s.orphan hash).isSome = true :=
    fun member => AList.lookup_isSome.mpr (AList.mem_keys.mpr member)
  unfold victim
  cases above : least (s.mapOrphanTransactions.keys.filter (randomhash ≤ ·)) with
  | some hash => exact ⟨hash, rfl, inMap (List.mem_filter.mp (mem_least above)).1⟩
  | none =>
      obtain ⟨hash, found⟩ := least_isSome (List.length_pos_iff.mp some_)
      exact ⟨hash, found, inMap (mem_least found)⟩

/-- `LimitOrphanTxSize` reaches the limit and keeps the index. -/
theorem limitOrphanTxSize_spec (nMaxOrphans : Nat) {fuel : Nat} (getRandHash : Nat → UInt256) (indexed : s.Indexed env)
    (enough : s.size ≤ fuel) :
    (limitOrphanTxSize nMaxOrphans fuel getRandHash s).Indexed env ∧
      (limitOrphanTxSize nMaxOrphans fuel getRandHash s).size ≤ nMaxOrphans ∧
      ∀ hashPrev, (limitOrphanTxSize nMaxOrphans fuel getRandHash s).entry hashPrev = some [] ↔
        s.entry hashPrev = some [] := by
  induction fuel generalizing s with
  | zero => exact ⟨indexed, enough.trans (Nat.zero_le _), fun _ => Iff.rfl⟩
  | succ fuel ih =>
      unfold limitOrphanTxSize
      by_cases over_ : nMaxOrphans < s.size
      · obtain ⟨hash, drawn, known⟩ := victim_mem (Nat.zero_lt_of_lt over_) (getRandHash fuel)
        have smaller : (s.eraseOrphanTx hash).size ≤ fuel := by
          rw [size_erase, if_pos known]
          omega
        obtain ⟨kept, bound, entries⟩ := ih (indexed.erase hash) smaller
        rw [if_pos over_, drawn]
        exact ⟨kept, bound, fun hashPrev => (entries hashPrev).trans (indexed.emptySet_erase hash hashPrev)⟩
      · rw [if_neg over_]
        exact ⟨indexed, Nat.le_of_not_lt over_, fun _ => Iff.rfl⟩

/-- The same for a list of hashes to erase. -/
theorem eraseAll_spec (hashes : List UInt256) (indexed : s.Indexed env) :
    (hashes.foldl eraseOrphanTx s).Indexed env ∧ (hashes.foldl eraseOrphanTx s).size ≤ s.size ∧
      ∀ hashPrev, (hashes.foldl eraseOrphanTx s).entry hashPrev = some [] ↔ s.entry hashPrev = some [] := by
  induction hashes generalizing s with
  | nil => exact ⟨indexed, le_rfl, fun _ => Iff.rfl⟩
  | cons hash rest ih =>
      obtain ⟨kept, bound, entries⟩ := ih (indexed.erase hash)
      refine ⟨kept, bound.trans ?_, fun hashPrev => (entries hashPrev).trans (indexed.emptySet_erase hash hashPrev)⟩
      rw [size_erase]
      split
      · exact Nat.sub_le _ _
      · exact le_rfl

end Maps

/-- The same orphans, waiting for the same transactions. -/
structure SameOrphans (before after : OrphanTxs) : Prop where
  orphan : ∀ hash, after.orphan hash = before.orphan hash
  waiting : ∀ hashPrev, after.waiting hashPrev = before.waiting hashPrev

theorem SameOrphans.refl (s : OrphanTxs) : SameOrphans s s := ⟨fun _ => rfl, fun _ => rfl⟩

theorem SameOrphans.trans {first second third : OrphanTxs} (left : SameOrphans first second)
    (right : SameOrphans second third) : SameOrphans first third :=
  ⟨fun hash => (right.orphan hash).trans (left.orphan hash),
    fun hashPrev => (right.waiting hashPrev).trans (left.waiting hashPrev)⟩

theorem Indexed.congr {env : Env} {before after : OrphanTxs} (indexed : before.Indexed env)
    (same : SameOrphans before after) : after.Indexed env := by
  constructor
  · intro hash tx
    rw [same.orphan]
    exact indexed.keyed
  · intro hashPrev hash
    simp only [same.waiting, same.orphan]
    exact indexed.index hashPrev hash

end OrphanTxs

namespace Release

/-- The orphans that are not in the memory pool. -/
def unpooled (r : Release) : Finset UInt256 :=
  r.orphans.mapOrphanTransactions.keys.toFinset.filter fun hash => r.node.mempool.contains hash = false

theorem mem_unpooled {r : Release} {hash : UInt256} :
    hash ∈ r.unpooled ↔ (r.orphans.orphan hash).isSome = true ∧ r.node.mempool.contains hash = false := by
  rw [unpooled, Finset.mem_filter, List.mem_toFinset, ← AList.mem_keys, ← AList.lookup_isSome]
  rfl

/-- Work that is left: entries of the queue from the `i`-th on, and orphans that can still be accepted. -/
def work (i : Nat) (r : Release) : Nat := r.vWorkQueue.length - i + r.unpooled.card

end Release

open OrphanTxs

section Releasing

variable {env : Env} {policy : Policy}

/-- An orphan is accepted only once, and the maps stay the same. -/
theorem tryOrphan_spec {r : Release} {hash : UInt256} {tx : CTransaction} (known : r.orphans.orphan hash = some tx)
    (keyed : env.txHash tx = hash) :
    SameOrphans r.orphans (tryOrphan env policy r hash).orphans ∧
      (tryOrphan env policy r hash).orphans.entry = r.orphans.entry ∧
      (∃ more, (tryOrphan env policy r hash).vWorkQueue = r.vWorkQueue ++ more) ∧
      ∀ i ≤ r.vWorkQueue.length, (tryOrphan env policy r hash).work i ≤ r.work i := by
  have value : (r.orphans.mapOrphanTransactions.lookup hash).getD CTransaction.null = tx := by
    change (r.orphans.orphan hash).getD CTransaction.null = tx
    rw [known, Option.getD_some]
  have orphans : ∀ other, (r.orphans.mapOrphanTransactions.insert hash tx).lookup other = r.orphans.orphan other := by
    intro other
    rw [Library.Assoc.lookup_insert_eq]
    split
    · rename_i same
      rw [same, known]
    · rfl
  have sameUnpooled : ∀ erase, Release.unpooled ⟨r.node, ⟨r.orphans.mapOrphanTransactions.insert hash tx,
      r.orphans.mapOrphanTransactionsByPrev⟩, r.vWorkQueue, erase⟩ = r.unpooled := by
    intro erase
    ext other
    rw [Release.mem_unpooled, Release.mem_unpooled, OrphanTxs.orphan, orphans]
  unfold tryOrphan
  simp only [value]
  cases verdict : acceptToMemoryPool env policy r.node tx with
  | none =>
      dsimp only
      split
      · refine ⟨⟨orphans, fun _ => rfl⟩, rfl, ⟨[], (List.append_nil _).symm⟩, fun i _ => ?_⟩
        rw [Release.work, Release.work, sameUnpooled r.vEraseQueue]
      · refine ⟨⟨orphans, fun _ => rfl⟩, rfl, ⟨[], (List.append_nil _).symm⟩, fun i _ => ?_⟩
        rw [Release.work, Release.work, sameUnpooled (r.vEraseQueue ++ [hash])]
  | some node =>
      refine ⟨⟨orphans, fun _ => rfl⟩, rfl, ⟨[hash], rfl⟩, fun i le => ?_⟩
      have accepted := acceptToMemoryPool_cases verdict
      have pooled : ∀ other, node.mempool.contains other = (decide (other = hash) || r.node.mempool.contains other) := by
        intro other
        rw [accepted.result, keyed]
        simp [CTxMemPool.contains, CTxMemPool.addUnchecked, AList.mem_insert]
      have shrinks : Finset.card (Release.unpooled ⟨node, ⟨r.orphans.mapOrphanTransactions.insert hash tx,
          r.orphans.mapOrphanTransactionsByPrev⟩, r.vWorkQueue ++ [hash], r.vEraseQueue ++ [hash]⟩) <
            r.unpooled.card := by
        refine Finset.card_lt_card ⟨fun other member => ?_, fun back => ?_⟩
        · rw [Release.mem_unpooled] at member ⊢
          rw [pooled, Bool.or_eq_false_iff] at member
          exact ⟨by rw [← member.1]; exact congrArg Option.isSome (orphans other).symm, member.2.2⟩
        · have here : hash ∈ r.unpooled := by
            rw [Release.mem_unpooled, known, ← keyed]
            exact ⟨rfl, accepted.unpooled⟩
          have gone := (Release.mem_unpooled.mp (back here)).2
          rw [pooled, decide_eq_true rfl, Bool.true_or] at gone
          cases gone
      simp only [Release.work, List.length_append, List.length_singleton]
      omega

/-- The same for the orphans that wait for one transaction. -/
theorem tryAll_spec (hashes : List UInt256) {r : Release} (indexed : r.orphans.Indexed env)
    (known : ∀ hash ∈ hashes, (r.orphans.orphan hash).isSome = true) :
    SameOrphans r.orphans (hashes.foldl (tryOrphan env policy) r).orphans ∧
      (hashes.foldl (tryOrphan env policy) r).orphans.entry = r.orphans.entry ∧
      (∃ more, (hashes.foldl (tryOrphan env policy) r).vWorkQueue = r.vWorkQueue ++ more) ∧
      ∀ i ≤ r.vWorkQueue.length, (hashes.foldl (tryOrphan env policy) r).work i ≤ r.work i := by
  induction hashes generalizing r with
  | nil => exact ⟨.refl _, rfl, ⟨[], (List.append_nil _).symm⟩, fun _ _ => le_rfl⟩
  | cons hash rest ih =>
      obtain ⟨first, others⟩ := List.forall_mem_cons.mp known
      obtain ⟨tx, found⟩ := Option.isSome_iff_exists.mp first
      obtain ⟨same, entries, ⟨more, queue⟩, less⟩ := @tryOrphan_spec _ policy _ _ _ found (indexed.keyed found)
      obtain ⟨same', entries', ⟨more', queue'⟩, less'⟩ := ih (indexed.congr same)
        fun other member => by rw [same.orphan]; exact others other member
      refine ⟨same.trans same', entries'.trans entries, ⟨more ++ more', ?_⟩, fun i le => ?_⟩
      · rw [List.foldl_cons, queue', queue, List.append_assoc]
      · refine (less' i ?_).trans (less i le)
        rw [queue, List.length_append]
        exact le.trans (Nat.le_add_right _ _)

/-- The loop ends; what it leaves behind in the index is an empty set for each transaction of the queue that no
orphan waits for. -/
theorem releaseOrphanTxs_spec {fuel i : Nat} {r : Release} (indexed : r.orphans.Indexed env)
    (inside : i ≤ r.vWorkQueue.length) (enough : r.work i ≤ fuel) :
    ∃ after, releaseOrphanTxs env policy fuel i r = some after ∧ SameOrphans r.orphans after.orphans ∧
      (∃ more, after.vWorkQueue = r.vWorkQueue ++ more) ∧
      ∀ hashPrev, after.orphans.entry hashPrev = some [] ↔
        r.orphans.entry hashPrev = some [] ∨ hashPrev ∈ after.vWorkQueue.drop i ∧ r.orphans.waiting hashPrev = [] := by
  induction fuel generalizing i r with
  | zero =>
      have done : r.vWorkQueue[i]? = none := List.getElem?_eq_none (by unfold Release.work at enough; omega)
      refine ⟨r, by rw [releaseOrphanTxs, done], .refl _, ⟨[], (List.append_nil _).symm⟩, fun hashPrev => ?_⟩
      rw [List.drop_eq_nil_of_le (List.getElem?_eq_none_iff.mp done)]
      simp
  | succ fuel ih =>
      unfold releaseOrphanTxs
      cases next : r.vWorkQueue[i]? with
      | none =>
          refine ⟨r, rfl, .refl _, ⟨[], (List.append_nil _).symm⟩, fun hashPrev => ?_⟩
          rw [List.drop_eq_nil_of_le (List.getElem?_eq_none_iff.mp next)]
          simp
      | some hashPrev =>
          obtain ⟨below, value⟩ := List.getElem?_eq_some_iff.mp next
          have touched : SameOrphans r.orphans (r.orphans.touch hashPrev) :=
            ⟨fun _ => rfl, fun other => waiting_touch r.orphans hashPrev other⟩
          have waits : ∀ hash ∈ r.orphans.waiting hashPrev, ((r.orphans.touch hashPrev).orphan hash).isSome = true := by
            intro hash member
            obtain ⟨tx, found, -⟩ := (indexed.index hashPrev hash).mp member
            exact Option.isSome_of_eq_some ((touched.orphan hash).trans found)
          obtain ⟨same, entries, ⟨more, queue⟩, less⟩ := @tryAll_spec env policy (r.orphans.waiting hashPrev)
            { r with orphans := r.orphans.touch hashPrev } (indexed.congr touched) waits
          have longer : i + 1 ≤ ((r.orphans.waiting hashPrev).foldl (tryOrphan env policy)
              { r with orphans := r.orphans.touch hashPrev }).vWorkQueue.length := by
            rw [queue, List.length_append]
            exact Nat.le_add_right_of_le below
          have smaller : ((r.orphans.waiting hashPrev).foldl (tryOrphan env policy)
              { r with orphans := r.orphans.touch hashPrev }).work (i + 1) ≤ fuel := by
            have step := less i inside
            have sameWork : Release.work i { r with orphans := r.orphans.touch hashPrev } = r.work i := rfl
            unfold Release.work at step enough sameWork ⊢
            omega
          obtain ⟨after, done, final, ⟨later, last⟩, empties⟩ := ih (indexed.congr (touched.trans same)) longer smaller
          refine ⟨after, done, (touched.trans same).trans final, ⟨more ++ later, ?_⟩, fun other => ?_⟩
          · rw [last, queue, List.append_assoc]
          · rw [empties, entries, entry_touch, (touched.trans same).waiting]
            have position : after.vWorkQueue[i]? = some hashPrev := by
              rw [last, queue, List.append_assoc, List.getElem?_append_left below]
              exact next
            obtain ⟨stillBelow, stillValue⟩ := List.getElem?_eq_some_iff.mp position
            have front : after.vWorkQueue.drop i = hashPrev :: after.vWorkQueue.drop (i + 1) := by
              rw [List.drop_eq_getElem_cons stillBelow, stillValue]
            rw [front, List.mem_cons]
            by_cases here : other = hashPrev
            · subst here
              have known : r.orphans.entry other = some [] → r.orphans.waiting other = [] := by
                intro none
                rw [waiting_eq, none, Option.getD_some]
              simp only [if_true, Option.some.injEq, true_or, true_and]
              constructor
              · rintro (now | ⟨-, now⟩)
                · exact Or.inr now
                · exact Or.inr now
              · rintro (none | now)
                · exact Or.inl (known none)
                · exact Or.inl now
            · simp [here]

end Releasing

/-- What can happen to the orphans: a `tx` message, with the hashes that are drawn for it, or anything else that
changes the node. -/
inductive TxEvent where
  | message (tx : CTransaction) (getRandHash : Nat → UInt256)
  | other (node : Node)

section Runs

variable (env : Env) (policy : Policy)

namespace TxEvent

def step (s : TxNode) : TxEvent → Option TxNode
  | message tx getRandHash => processTx env policy getRandHash s tx
  | other node => some { s with node := node }

/-- The transactions that `AcceptToMemoryPool` accepts for a message: its own and the orphans that follow. -/
def accepted (s : TxNode) : TxEvent → List UInt256
  | message tx _ =>
      match acceptToMemoryPool env policy s.node tx with
      | some node => ((releaseFor env policy s node tx).map Release.vWorkQueue).getD []
      | none => []
  | other _ => []

/-- Some orphan waits for each accepted transaction. -/
def Covered (s : TxNode) (event : TxEvent) : Prop :=
  ∀ hash ∈ event.accepted env policy s, s.orphans.waiting hash ≠ []

end TxEvent

/-- The state after some events. -/
def txRun (s : TxNode) (events : List TxEvent) : Option TxNode := events.foldlM (TxEvent.step env policy) s

/-- The index has an orphan exactly for the transactions it spends from and no empty set, and the orphans are
at most `MAX_ORPHAN_TRANSACTIONS`. -/
structure OrphanTxs.Tidy (s : OrphanTxs) : Prop where
  index : ∀ hashPrev hash, hash ∈ s.waiting hashPrev ↔ ∃ tx, s.orphan hash = some tx ∧ tx.SpendsFrom hashPrev
  noEmptySet : s.NoEmptySet
  bound : s.size ≤ maxOrphanTransactions

/-- What every message keeps. -/
structure OrphanTxs.Bounded (s : OrphanTxs) : Prop where
  indexed : s.Indexed env
  bound : s.size ≤ maxOrphanTransactions

variable {env policy}

theorem OrphanTxs.SameOrphans.size {before after : OrphanTxs} (same : SameOrphans before after) :
    after.size = before.size := by
  refine List.Perm.length_eq ((List.perm_ext_iff_of_nodup after.mapOrphanTransactions.nodupKeys
    before.mapOrphanTransactions.nodupKeys).mpr fun hash => ?_)
  have here := congrArg Option.isSome (same.orphan hash)
  rw [OrphanTxs.orphan, OrphanTxs.orphan] at here
  have iff : (after.mapOrphanTransactions.lookup hash).isSome = true ↔
      (before.mapOrphanTransactions.lookup hash).isSome = true := by rw [here]
  exact AList.lookup_isSome.symm.trans (iff.trans AList.lookup_isSome)

/-- The release of an accepted transaction ends. -/
theorem releaseFor_spec {s : TxNode} (indexed : s.orphans.Indexed env) (node : Node) (tx : CTransaction) :
    ∃ after, releaseFor env policy s node tx = some after ∧ SameOrphans s.orphans after.orphans ∧
      ∀ hashPrev, after.orphans.entry hashPrev = some [] ↔
        s.orphans.entry hashPrev = some [] ∨ hashPrev ∈ after.vWorkQueue ∧ s.orphans.waiting hashPrev = [] := by
  have enough : Release.work 0 ⟨node, s.orphans, [env.txHash tx], [env.txHash tx]⟩ ≤ s.orphans.size + 1 := by
    have few : Finset.card (Release.unpooled ⟨node, s.orphans, [env.txHash tx], [env.txHash tx]⟩) ≤ s.orphans.size :=
      (Finset.card_filter_le _ _).trans (List.toFinset_card_le _)
    simp only [Release.work, List.length_singleton]
    omega
  obtain ⟨after, done, same, -, empties⟩ := @releaseOrphanTxs_spec _ policy _ _ _ indexed (Nat.zero_le _) enough
  exact ⟨after, done, same, empties⟩

/-- One event: the maps stay bounded and agree, and an index without an empty set has none afterwards exactly where
an orphan waits for each accepted transaction. -/
theorem TxEvent.step_spec {s : TxNode} (bounded : s.orphans.Bounded env) (event : TxEvent) :
    ∃ after, event.step env policy s = some after ∧ after.orphans.Bounded env ∧
      (s.orphans.NoEmptySet → (after.orphans.NoEmptySet ↔ event.Covered env policy s)) := by
  cases event with
  | other node => exact ⟨_, rfl, bounded, fun none => ⟨fun _ _ => nofun, fun _ => none⟩⟩
  | message tx getRandHash =>
      cases verdict : acceptToMemoryPool env policy s.node tx with
      | some node =>
          obtain ⟨r, done, same, empties⟩ := @releaseFor_spec _ policy _ bounded.indexed node tx
          obtain ⟨kept, smaller, entries⟩ := eraseAll_spec r.vEraseQueue (bounded.indexed.congr same)
          refine ⟨⟨r.node, r.vEraseQueue.foldl eraseOrphanTx r.orphans⟩, ?_, ⟨kept, ?_⟩, fun none => ?_⟩
          · rw [TxEvent.step, processTx, verdict]
            simp only [done, Option.map_some]
          · exact smaller.trans (same.size.le.trans bounded.bound)
          · have queue : TxEvent.accepted env policy s (.message tx getRandHash) = r.vWorkQueue := by
              rw [TxEvent.accepted, verdict]
              simp only [done, Option.map_some, Option.getD_some]
            rw [TxEvent.Covered, queue]
            constructor
            · intro clean hash member empty
              exact clean hash ((entries hash).mpr ((empties hash).mpr (.inr ⟨member, empty⟩)))
            · intro covered hash empty
              rcases (empties hash).mp ((entries hash).mp empty) with before | ⟨member, waits⟩
              · exact none hash before
              · exact covered hash member waits
      | none =>
          have nothing : TxEvent.accepted env policy s (.message tx getRandHash) = [] := by
            rw [TxEvent.accepted, verdict]
          have covered : TxEvent.Covered env policy s (.message tx getRandHash) := by
            rw [TxEvent.Covered, nothing]
            nofun
          by_cases missing : missingInputs env policy s.node tx = true
          · obtain ⟨kept, bound, entries⟩ := limitOrphanTxSize_spec maxOrphanTransactions getRandHash
              (bounded.indexed.add tx) le_rfl
            refine ⟨_, by rw [TxEvent.step, processTx, verdict]; exact if_pos missing, ⟨kept, bound⟩, fun none => ?_⟩
            exact ⟨fun _ => covered, fun _ hash empty => none.add tx hash ((entries hash).mp empty)⟩
          · refine ⟨s, by rw [TxEvent.step, processTx, verdict]; exact if_neg missing, bounded, fun none => ?_⟩
            exact ⟨fun _ => covered, fun _ => none⟩

/-- A run: every state along it has no empty set exactly where every event is covered. -/
theorem txRun_spec (events : List TxEvent) {s : TxNode} (bounded : s.orphans.Bounded env) :
    (∀ front, front <+: events → ∃ after, txRun env policy s front = some after ∧ after.orphans.Bounded env) ∧
      (s.orphans.NoEmptySet →
        ((∀ front after, front <+: events → txRun env policy s front = some after → after.orphans.NoEmptySet) ↔
          ∀ front event rest before, events = front ++ event :: rest → txRun env policy s front = some before →
            event.Covered env policy before)) := by
  have steps : Library.Runs.Steps (TxEvent.step env policy) (fun s => s.orphans.Bounded env)
      (fun s => s.orphans.NoEmptySet) fun s event => event.Covered env policy s :=
    ⟨fun bounded event => TxEvent.step_spec bounded event⟩
  exact ⟨fun front _ => steps.run front bounded, fun none => steps.always_iff events bounded none⟩

theorem OrphanTxs.empty_bounded (env : Env) : OrphanTxs.empty.Bounded env := ⟨empty_indexed env, Nat.zero_le _⟩

/-- Every run handles its messages to the end and keeps the index and the bound. There is an empty set in the index
after some message exactly where some message leads to an accepted transaction that no orphan waits for. -/
theorem orphan_index_tidy_iff (env : Env) (policy : Policy) (node : Node) (events : List TxEvent) :
    (∀ front, front <+: events → ∃ s, txRun env policy ⟨node, .empty⟩ front = some s ∧
      (∀ hashPrev hash, hash ∈ s.orphans.waiting hashPrev ↔
        ∃ tx, s.orphans.orphan hash = some tx ∧ tx.SpendsFrom hashPrev) ∧
      s.orphans.size ≤ maxOrphanTransactions) ∧
    ((∀ front s, front <+: events → txRun env policy ⟨node, .empty⟩ front = some s → s.orphans.Tidy) ↔
      ∀ front event rest s, events = front ++ event :: rest → txRun env policy ⟨node, .empty⟩ front = some s →
        event.Covered env policy s) := by
  obtain ⟨ends, clean⟩ := @txRun_spec env policy events ⟨node, .empty⟩ (empty_bounded env)
  refine ⟨fun front initial => ?_, (Iff.intro ?_ ?_).trans (clean nofun)⟩
  · obtain ⟨s, run, kept⟩ := ends front initial
    exact ⟨s, run, kept.indexed.index, kept.bound⟩
  · exact fun tidy front s initial run => (tidy front s initial run).noEmptySet
  · intro none front s initial run
    obtain ⟨s', run', kept⟩ := ends front initial
    obtain rfl := Option.some.inj (run'.symm.trans run)
    exact ⟨kept.indexed.index, none front s' initial run, kept.bound⟩

end Runs

/-- A transaction is accepted while there are no orphans: the index has an empty set for it. -/
theorem accepted_leaves_emptySet :
    ¬∀ (env : Env) (policy : Policy) (node : Node) (events : List TxEvent) (s : TxNode),
      txRun env policy ⟨node, .empty⟩ events = some s → s.orphans.Tidy := by
  intro tidy
  have run : ∃ s, txRun (Env.labelled true) .lax ⟨poolStart, .empty⟩ [.message spender fun _ => 0] = some s ∧
      s.orphans.entry 20 = some [] := by
    have value : ((txRun (Env.labelled true) .lax ⟨poolStart, .empty⟩ [.message spender fun _ => 0]).map
        fun s => s.orphans.entry 20) = some (some []) := by
      decide +kernel
    exact Option.map_eq_some_iff.mp value
  obtain ⟨s, run, left⟩ := run
  exact (tidy _ _ _ _ s run).noEmptySet 20 left

end InfiniteRicks
