import InfiniteRicks.OrphanTxSpec

/-!
# Who hears of a released orphan

The `tx` message with its calls of `SyncWithWallets` and `RelayTransaction`. Where an orphan is
accepted, the relay gets the orphan, but the wallets get the received transaction once more.
-/

namespace InfiniteRicks

open OrphanTxs

/-- The arguments of the calls of `SyncWithWallets` and `RelayTransaction`, in order. -/
structure Notices where
  synced : List CTransaction
  relayed : List (CTransaction × UInt256)

/-- The release of orphans with the calls made so far. -/
structure NoticedRelease extends Release, Notices

section Message

variable (env : Env) (policy : Policy) (tx : CTransaction)

/-- One orphan, with the calls for it. `tx` is the transaction that was received. -/
def tryOrphanNoticed (r : NoticedRelease) (orphanTxHash : UInt256) : NoticedRelease :=
  let orphanTx := (r.orphans.mapOrphanTransactions.lookup orphanTxHash).getD CTransaction.null
  let release := tryOrphan env policy r.toRelease orphanTxHash
  match acceptToMemoryPool env policy r.node orphanTx with
  | some _ => ⟨release, ⟨r.synced ++ [tx], r.relayed ++ [(orphanTx, orphanTxHash)]⟩⟩
  | none => ⟨release, r.toNotices⟩

/-- The loop over the work queue. -/
def releaseNoticed : Nat → Nat → NoticedRelease → Option NoticedRelease
  | fuel, i, r =>
      match r.vWorkQueue[i]? with
      | none => some r
      | some hashPrev =>
          match fuel with
          | 0 => none
          | fuel + 1 =>
              releaseNoticed fuel (i + 1)
                ((r.orphans.waiting hashPrev).foldl (tryOrphanNoticed env policy tx)
                  { r with orphans := r.orphans.touch hashPrev })

/-- The release for an accepted transaction. -/
def noticedFor (s : TxNode) (node : Node) : Option NoticedRelease :=
  releaseNoticed env policy tx (s.orphans.size + 1) 0
    ⟨⟨node, s.orphans, [env.txHash tx], [env.txHash tx]⟩, ⟨[tx], [(tx, env.txHash tx)]⟩⟩

/-- The `tx` message with its calls. -/
def processTxNoticed (getRandHash : Nat → UInt256) (s : TxNode) : Option (TxNode × Notices) :=
  match acceptToMemoryPool env policy s.node tx with
  | some node =>
      (noticedFor env policy tx s node).map fun r =>
        (⟨r.node, r.vEraseQueue.foldl OrphanTxs.eraseOrphanTx r.orphans⟩, r.toNotices)
  | none => (processTx env policy getRandHash s tx).map (·, ⟨[], []⟩)

end Message

section Forget

variable {env : Env} {policy : Policy} {tx : CTransaction}

theorem tryOrphanNoticed_release (r : NoticedRelease) (hash : UInt256) :
    (tryOrphanNoticed env policy tx r hash).toRelease = tryOrphan env policy r.toRelease hash := by
  unfold tryOrphanNoticed
  dsimp only
  split <;> rfl

theorem tryAllNoticed_release (hashes : List UInt256) (r : NoticedRelease) :
    (hashes.foldl (tryOrphanNoticed env policy tx) r).toRelease = hashes.foldl (tryOrphan env policy) r.toRelease := by
  induction hashes generalizing r with
  | nil => rfl
  | cons hash rest ih => rw [List.foldl_cons, List.foldl_cons, ih, tryOrphanNoticed_release]

theorem releaseNoticed_release (fuel i : Nat) (r : NoticedRelease) :
    (releaseNoticed env policy tx fuel i r).map NoticedRelease.toRelease =
      releaseOrphanTxs env policy fuel i r.toRelease := by
  induction fuel generalizing i r with
  | zero =>
      unfold releaseNoticed releaseOrphanTxs
      cases r.vWorkQueue[i]? with
      | none => rfl
      | some hashPrev => rfl
  | succ fuel ih =>
      unfold releaseNoticed releaseOrphanTxs
      cases r.vWorkQueue[i]? with
      | none => rfl
      | some hashPrev =>
          dsimp only
          rw [ih, tryAllNoticed_release]

/-- Without its calls, the message is the one that is modelled. -/
theorem processTxNoticed_processTx (getRandHash : Nat → UInt256) (s : TxNode) :
    (processTxNoticed env policy tx getRandHash s).map Prod.fst = processTx env policy getRandHash s tx := by
  unfold processTxNoticed
  cases verdict : acceptToMemoryPool env policy s.node tx with
  | none =>
      dsimp only
      rw [Option.map_map]
      exact Option.map_id'
  | some node =>
      unfold processTx releaseFor
      rw [verdict]
      dsimp only
      rw [← releaseNoticed_release _ _ (NoticedRelease.mk _ ⟨[tx], [(tx, env.txHash tx)]⟩), Option.map_map, Option.map_map]
      rfl

end Forget

/-- What is in the memory pool by now was there before or was relayed and will be erased; and the wallets have
heard of the received transaction only. -/
structure NoticedRelease.Accounted (before : Node) (tx : CTransaction) (r : NoticedRelease) : Prop where
  pooled : ∀ hash member, r.node.mempool.lookup hash = some member → before.mempool.lookup hash = some member ∨
    (member, hash) ∈ r.relayed ∧ hash ∈ r.vEraseQueue
  synced : ∀ member, member ∈ r.synced ↔ member = tx

/-- Nothing leaves the memory pool. -/
def PoolGrows (before after : Node) : Prop :=
  ∀ hash member, before.mempool.lookup hash = some member → after.mempool.lookup hash = some member

section Steps

variable {env : Env} {policy : Policy} {before : Node} {tx : CTransaction} {r : NoticedRelease}

theorem PoolGrows.refl (s : Node) : PoolGrows s s := fun _ _ found => found

theorem PoolGrows.trans {first second third : Node} (left : PoolGrows first second) (right : PoolGrows second third) :
    PoolGrows first third :=
  fun hash member found => right hash member (left hash member found)

theorem Accepted.lookup {s after : Node} (accepted : Accepted env s tx after) (hash : UInt256) :
    after.mempool.lookup hash = if hash = env.txHash tx then some tx else s.mempool.lookup hash := by
  rw [accepted.result]
  exact Library.Assoc.lookup_insert_eq _ _ _ _

theorem Accepted.fresh {s after : Node} (accepted : Accepted env s tx after) :
    s.mempool.lookup (env.txHash tx) = none := by
  have absent := accepted.unpooled
  rw [CTxMemPool.contains, decide_eq_false_iff_not] at absent
  exact AList.lookup_eq_none.mpr absent

theorem Accepted.poolGrows {s after : Node} (accepted : Accepted env s tx after) : PoolGrows s after := by
  intro hash member found
  rw [accepted.lookup, if_neg, found]
  rintro rfl
  cases found.symm.trans accepted.fresh

/-- What one orphan does to the pool and to the calls. -/
theorem tryOrphanNoticed_cases {hash : UInt256} {orphanTx : CTransaction} (r : NoticedRelease)
    (known : r.orphans.orphan hash = some orphanTx) :
    (acceptToMemoryPool env policy r.node orphanTx = none ∧
        (tryOrphanNoticed env policy tx r hash).node = r.node ∧
        (tryOrphanNoticed env policy tx r hash).toNotices = r.toNotices ∧
        (tryOrphanNoticed env policy tx r hash).vWorkQueue = r.vWorkQueue ∧
        r.vEraseQueue ⊆ (tryOrphanNoticed env policy tx r hash).vEraseQueue) ∨
      ∃ node, acceptToMemoryPool env policy r.node orphanTx = some node ∧
        (tryOrphanNoticed env policy tx r hash).node = node ∧
        (tryOrphanNoticed env policy tx r hash).toNotices = ⟨r.synced ++ [tx], r.relayed ++ [(orphanTx, hash)]⟩ ∧
        (tryOrphanNoticed env policy tx r hash).vEraseQueue = r.vEraseQueue ++ [hash] := by
  have value : (r.orphans.mapOrphanTransactions.lookup hash).getD CTransaction.null = orphanTx :=
    (congrArg (Option.getD · CTransaction.null) known).trans (Option.getD_some ..)
  unfold tryOrphanNoticed tryOrphan
  simp only [value]
  cases verdict : acceptToMemoryPool env policy r.node orphanTx with
  | some node => exact Or.inr ⟨node, rfl, rfl, rfl, rfl⟩
  | none =>
      refine Or.inl ⟨rfl, ?_⟩
      dsimp only
      split
      · exact ⟨rfl, rfl, rfl, List.Subset.refl _⟩
      · exact ⟨rfl, rfl, rfl, List.subset_append_left _ _⟩

theorem NoticedRelease.Accounted.tryOrphan {hash : UInt256} {orphanTx : CTransaction} (accounted : r.Accounted before tx)
    (known : r.orphans.orphan hash = some orphanTx) (keyed : env.txHash orphanTx = hash) :
    (tryOrphanNoticed env policy tx r hash).Accounted before tx ∧
      PoolGrows r.node (tryOrphanNoticed env policy tx r hash).node := by
  rcases @tryOrphanNoticed_cases env policy tx _ _ r known with
    ⟨-, node, notices, -, erased⟩ | ⟨after, verdict, node, notices, erased⟩
  · constructor
    · constructor
      · intro other member found
        rw [node] at found
        rw [notices]
        exact (accounted.pooled other member found).imp_right fun both => ⟨both.1, erased both.2⟩
      · rw [notices]
        exact accounted.synced
    · rw [node]
      exact .refl _
  · have accepted := acceptToMemoryPool_cases verdict
    constructor
    · constructor
      · intro other member found
        rw [node, accepted.lookup, keyed] at found
        rw [notices, erased]
        split at found
        · rename_i same
          cases found
          exact Or.inr ⟨by rw [same]; exact List.mem_append_right _ (List.mem_singleton_self _),
            by rw [same]; exact List.mem_append_right _ (List.mem_singleton_self _)⟩
        · exact (accounted.pooled other member found).imp_right fun both =>
            ⟨List.mem_append_left _ both.1, List.mem_append_left _ both.2⟩
      · intro member
        rw [notices]
        simp only [List.mem_append, List.mem_singleton, accounted.synced, or_self]
    · rw [node]
      exact accepted.poolGrows

/-- The same for the orphans that wait for one transaction, and for the whole loop. -/
theorem NoticedRelease.Accounted.tryAll (hashes : List UInt256) (accounted : r.Accounted before tx)
    (indexed : r.orphans.Indexed env) (known : ∀ hash ∈ hashes, (r.orphans.orphan hash).isSome = true) :
    (hashes.foldl (tryOrphanNoticed env policy tx) r).Accounted before tx ∧
      PoolGrows r.node (hashes.foldl (tryOrphanNoticed env policy tx) r).node := by
  induction hashes generalizing r with
  | nil => exact ⟨accounted, .refl _⟩
  | cons hash rest ih =>
      obtain ⟨first, others⟩ := List.forall_mem_cons.mp known
      obtain ⟨orphanTx, found⟩ := Option.isSome_iff_exists.mp first
      obtain ⟨kept, grows⟩ := @accounted.tryOrphan _ policy _ _ _ _ _ found (indexed.keyed found)
      obtain ⟨same, -⟩ := @tryOrphan_spec _ policy _ _ _ found (indexed.keyed found)
      rw [← tryOrphanNoticed_release] at same
      obtain ⟨final, grows'⟩ := ih kept (indexed.congr same)
        fun other member => by rw [same.orphan]; exact others other member
      exact ⟨final, grows.trans grows'⟩

theorem NoticedRelease.Accounted.release {fuel i : Nat} {after : NoticedRelease} (accounted : r.Accounted before tx)
    (indexed : r.orphans.Indexed env) (run : releaseNoticed env policy tx fuel i r = some after) :
    after.Accounted before tx ∧ PoolGrows r.node after.node := by
  induction fuel generalizing i r with
  | zero =>
      unfold releaseNoticed at run
      cases next : r.vWorkQueue[i]? with
      | some hashPrev =>
          rw [next] at run
          cases run
      | none =>
          rw [next] at run
          cases run
          exact ⟨accounted, .refl _⟩
  | succ fuel ih =>
      unfold releaseNoticed at run
      cases next : r.vWorkQueue[i]? with
      | none =>
          rw [next] at run
          cases run
          exact ⟨accounted, .refl _⟩
      | some hashPrev =>
          rw [next] at run
          have touched : SameOrphans r.orphans (r.orphans.touch hashPrev) :=
            ⟨fun _ => rfl, fun other => waiting_touch r.orphans hashPrev other⟩
          have waits : ∀ hash ∈ r.orphans.waiting hashPrev, ((r.orphans.touch hashPrev).orphan hash).isSome = true := by
            intro hash member
            obtain ⟨orphanTx, found, -⟩ := (indexed.index hashPrev hash).mp member
            exact Option.isSome_of_eq_some ((touched.orphan hash).trans found)
          have start : NoticedRelease.Accounted before tx { r with orphans := r.orphans.touch hashPrev } :=
            ⟨accounted.pooled, accounted.synced⟩
          obtain ⟨kept, grows⟩ := @start.tryAll _ policy _ _ _ _ (indexed.congr touched) waits
          obtain ⟨same, -⟩ := @tryAll_spec env policy _ { r.toRelease with orphans := r.orphans.touch hashPrev }
            (indexed.congr touched) waits
          have sameNoticed := @tryAllNoticed_release env policy tx (r.orphans.waiting hashPrev)
            { r with orphans := r.orphans.touch hashPrev }
          rw [← sameNoticed] at same
          obtain ⟨final, grows'⟩ := ih kept (indexed.congr (touched.trans same)) run
          exact ⟨final, grows.trans grows'⟩

/-- Where some waiting orphan is accepted, the first such one is in the pool afterwards. -/
theorem tryAll_pools (hashes : List UInt256) (accounted : r.Accounted before tx) (indexed : r.orphans.Indexed env)
    (known : ∀ hash ∈ hashes, (r.orphans.orphan hash).isSome = true)
    (follows : ∃ hash ∈ hashes, ∃ orphanTx, r.orphans.orphan hash = some orphanTx ∧
      acceptToMemoryPool env policy r.node orphanTx ≠ none) :
    ∃ orphanTx, r.node.mempool.lookup (env.txHash orphanTx) = none ∧
      (hashes.foldl (tryOrphanNoticed env policy tx) r).node.mempool.lookup (env.txHash orphanTx) = some orphanTx := by
  induction hashes generalizing r with
  | nil =>
      obtain ⟨hash, member, -⟩ := follows
      cases member
  | cons hash rest ih =>
      obtain ⟨first, others⟩ := List.forall_mem_cons.mp known
      obtain ⟨orphanTx, found⟩ := Option.isSome_iff_exists.mp first
      obtain ⟨kept, -⟩ := @accounted.tryOrphan _ policy _ _ _ _ _ found (indexed.keyed found)
      obtain ⟨same, -⟩ := @tryOrphan_spec _ policy _ _ _ found (indexed.keyed found)
      rw [← @tryOrphanNoticed_release _ _ tx] at same
      have waits : ∀ other ∈ rest, ((tryOrphanNoticed env policy tx r hash).orphans.orphan other).isSome = true :=
        fun other member => by rw [same.orphan]; exact others other member
      rcases @tryOrphanNoticed_cases env policy tx _ _ r found with
        ⟨refused, node, -⟩ | ⟨after, verdict, node, -⟩
      · rw [List.foldl_cons, ← node]
        refine ih kept (indexed.congr same) waits ?_
        obtain ⟨other, member, otherTx, foundOther, accepted⟩ := follows
        rcases List.mem_cons.mp member with rfl | later
        · cases foundOther.symm.trans found
          exact absurd refused accepted
        · exact ⟨other, later, otherTx, (same.orphan other).trans foundOther, by rw [node]; exact accepted⟩
      · have accepted := acceptToMemoryPool_cases verdict
        refine ⟨orphanTx, accepted.fresh, ?_⟩
        obtain ⟨-, grows⟩ := @kept.tryAll _ policy _ _ _ rest (indexed.congr same) waits
        refine grows _ _ ?_
        rw [node, accepted.lookup, if_pos rfl]

/-- Where none is accepted, the node and the work queue stay as they are. -/
theorem tryAll_none (hashes : List UInt256) (indexed : r.orphans.Indexed env)
    (known : ∀ hash ∈ hashes, (r.orphans.orphan hash).isSome = true)
    (none : ∀ hash ∈ hashes, ∀ orphanTx, r.orphans.orphan hash = some orphanTx →
      acceptToMemoryPool env policy r.node orphanTx = none) :
    (hashes.foldl (tryOrphanNoticed env policy tx) r).node = r.node ∧
      (hashes.foldl (tryOrphanNoticed env policy tx) r).vWorkQueue = r.vWorkQueue := by
  induction hashes generalizing r with
  | nil => exact ⟨rfl, rfl⟩
  | cons hash rest ih =>
      obtain ⟨first, others⟩ := List.forall_mem_cons.mp known
      obtain ⟨refused, remaining⟩ := List.forall_mem_cons.mp none
      obtain ⟨orphanTx, found⟩ := Option.isSome_iff_exists.mp first
      obtain ⟨same, -⟩ := @tryOrphan_spec _ policy _ _ _ found (indexed.keyed found)
      rw [← @tryOrphanNoticed_release _ _ tx] at same
      rcases @tryOrphanNoticed_cases env policy tx _ _ r found with
        ⟨-, node, -, queue, -⟩ | ⟨after, verdict, -⟩
      · obtain ⟨nodes, queues⟩ := ih (indexed.congr same) (fun other member => by rw [same.orphan]; exact others other member)
          fun other member otherTx foundOther => by
            rw [node]
            exact remaining other member otherTx ((same.orphan other).symm.trans foundOther)
        rw [List.foldl_cons, nodes, queues]
        exact ⟨node, queue⟩
      · cases verdict.symm.trans (refused orphanTx found)

end Steps

/-- Every transaction that becomes a member of the memory pool is handed to the wallets and relayed, and it is no
orphan afterwards. -/
def EveryoneHears (before after : TxNode) (notices : Notices) : Prop :=
  ∀ hash tx, before.node.mempool.lookup hash = none → after.node.mempool.lookup hash = some tx →
    tx ∈ notices.synced ∧ (tx, hash) ∈ notices.relayed ∧ after.orphans.orphan hash = none ∧
      ∀ hashPrev, hash ∉ after.orphans.waiting hashPrev

/-- The received transaction is not accepted, or with it in the pool none of the orphans that wait for it is. -/
def NoneFollows (env : Env) (policy : Policy) (s : TxNode) (tx : CTransaction) : Prop :=
  ∀ node, acceptToMemoryPool env policy s.node tx = some node → ∀ hash ∈ s.orphans.waiting (env.txHash tx),
    ∀ orphanTx, s.orphans.orphan hash = some orphanTx → acceptToMemoryPool env policy node orphanTx = none

section Heard

variable {env : Env} {policy : Policy}

theorem eraseAll_orphan (hashes : List UInt256) (orphans : OrphanTxs) (hash : UInt256) :
    (hashes.foldl eraseOrphanTx orphans).orphan hash = if hash ∈ hashes then none else orphans.orphan hash := by
  induction hashes generalizing orphans with
  | nil => rw [List.foldl_nil, if_neg List.not_mem_nil]
  | cons first rest ih =>
      rw [List.foldl_cons, ih, eraseOrphanTx_orphan]
      by_cases later : hash ∈ rest
      · rw [if_pos later, if_pos (List.mem_cons_of_mem _ later)]
      · rw [if_neg later]
        by_cases same : hash = first
        · rw [if_pos same, if_pos (same ▸ List.mem_cons_self)]
        · rw [if_neg same, if_neg fun member => (List.mem_cons.mp member).elim same later]

/-- The state in which the release starts, and the one after the orphans that wait for the received transaction. -/
def releaseStart (env : Env) (s : TxNode) (node : Node) (tx : CTransaction) : NoticedRelease :=
  ⟨⟨node, s.orphans.touch (env.txHash tx), [env.txHash tx], [env.txHash tx]⟩, ⟨[tx], [(tx, env.txHash tx)]⟩⟩

def releaseFirst (env : Env) (policy : Policy) (s : TxNode) (node : Node) (tx : CTransaction) : NoticedRelease :=
  (s.orphans.waiting (env.txHash tx)).foldl (tryOrphanNoticed env policy tx) (releaseStart env s node tx)

theorem noticedFor_first (s : TxNode) (node : Node) (tx : CTransaction) :
    noticedFor env policy tx s node =
      releaseNoticed env policy tx s.orphans.size 1 (releaseFirst env policy s node tx) := rfl

variable {s : TxNode} {node : Node} {tx : CTransaction}

theorem touch_sameOrphans (orphans : OrphanTxs) (hashPrev : UInt256) : SameOrphans orphans (orphans.touch hashPrev) :=
  ⟨fun _ => rfl, fun other => waiting_touch orphans hashPrev other⟩

theorem releaseStart_waits (indexed : s.orphans.Indexed env) :
    ∀ hash ∈ s.orphans.waiting (env.txHash tx), ((releaseStart env s node tx).orphans.orphan hash).isSome = true := by
  intro hash member
  obtain ⟨orphanTx, found, -⟩ := (indexed.index _ hash).mp member
  exact Option.isSome_of_eq_some (((touch_sameOrphans s.orphans (env.txHash tx)).orphan hash).trans found)

theorem releaseStart_accounted (accepted : Accepted env s.node tx node) :
    (releaseStart env s node tx).Accounted s.node tx := by
  constructor
  · intro hash member found
    change node.mempool.lookup hash = some member at found
    rw [accepted.lookup] at found
    split at found
    · rename_i same
      cases found
      exact Or.inr ⟨by rw [same]; exact List.mem_singleton_self _, by rw [same]; exact List.mem_singleton_self _⟩
    · exact Or.inl found
  · exact fun member => List.mem_singleton

/-- An orphan that follows is in the pool at the end, and the wallets have not heard of it. -/
theorem follower_unheard {after : NoticedRelease} (indexed : s.orphans.Indexed env)
    (accepted : Accepted env s.node tx node) (run : noticedFor env policy tx s node = some after)
    (follows : ∃ hash ∈ s.orphans.waiting (env.txHash tx), ∃ orphanTx, s.orphans.orphan hash = some orphanTx ∧
      acceptToMemoryPool env policy node orphanTx ≠ none) :
    ∃ orphanTx, s.node.mempool.lookup (env.txHash orphanTx) = none ∧
      after.node.mempool.lookup (env.txHash orphanTx) = some orphanTx ∧ orphanTx ∉ after.synced := by
  have start : (releaseStart env s node tx).orphans.Indexed env :=
    indexed.congr (touch_sameOrphans s.orphans (env.txHash tx))
  have accounted := releaseStart_accounted accepted
  have waits := @releaseStart_waits _ _ node tx indexed
  obtain ⟨orphanTx, fresh, pooled⟩ := @tryAll_pools env policy _ _ _ _ accounted start waits follows
  obtain ⟨kept, -⟩ := @accounted.tryAll _ policy _ _ _ _ start waits
  obtain ⟨same, -⟩ := @tryAll_spec env policy _ (releaseStart env s node tx).toRelease start waits
  rw [← @tryAllNoticed_release env policy tx] at same
  obtain ⟨final, grows⟩ := kept.release (start.congr same) run
  refine ⟨orphanTx, ?_, grows _ _ pooled, fun heard => ?_⟩
  · cases old : s.node.mempool.lookup (env.txHash orphanTx) with
    | none => rfl
    | some member => cases (accepted.poolGrows _ _ old).symm.trans fresh
  · rw [(final.synced orphanTx).mp heard] at fresh
    have own : node.mempool.lookup (env.txHash tx) = some tx := by rw [accepted.lookup, if_pos rfl]
    cases own.symm.trans fresh

/-- Where no orphan follows, the received transaction is the only new member of the pool. -/
theorem alone_pooled {after : NoticedRelease} (indexed : s.orphans.Indexed env)
    (accepted : Accepted env s.node tx node) (run : noticedFor env policy tx s node = some after)
    (alone : ∀ hash ∈ s.orphans.waiting (env.txHash tx), ∀ orphanTx, s.orphans.orphan hash = some orphanTx →
      acceptToMemoryPool env policy node orphanTx = none) {hash : UInt256} {member : CTransaction}
    (fresh : s.node.mempool.lookup hash = none) (pooled : after.node.mempool.lookup hash = some member) : member = tx := by
  have start : (releaseStart env s node tx).orphans.Indexed env :=
    indexed.congr (touch_sameOrphans s.orphans (env.txHash tx))
  obtain ⟨nodes, queue⟩ := @tryAll_none env policy tx _ _ start (@releaseStart_waits _ _ node tx indexed) alone
  change (releaseFirst env policy s node tx).node = node at nodes
  change (releaseFirst env policy s node tx).vWorkQueue = [env.txHash tx] at queue
  rw [noticedFor_first] at run
  unfold releaseNoticed at run
  rw [queue] at run
  cases run
  rw [nodes, accepted.lookup] at pooled
  split at pooled
  · exact (Option.some.inj pooled).symm
  · cases fresh.symm.trans pooled

/-- A message lets everyone hear of what it pools exactly when no orphan follows the received transaction. The relay and
the removal do not depend on that; the wallets do. -/
theorem everyoneHears_iff (indexed : s.orphans.Indexed env) (getRandHash : Nat → UInt256) (tx : CTransaction) :
    ∃ after notices, processTxNoticed env policy tx getRandHash s = some (after, notices) ∧
      (EveryoneHears s after notices ↔ NoneFollows env policy s tx) := by
  unfold processTxNoticed
  cases verdict : acceptToMemoryPool env policy s.node tx with
  | none =>
      have unchanged : ∃ orphans, processTx env policy getRandHash s tx = some ⟨s.node, orphans⟩ := by
        unfold processTx
        rw [verdict]
        dsimp only
        split
        · exact ⟨_, rfl⟩
        · exact ⟨_, rfl⟩
      obtain ⟨orphans, result⟩ := unchanged
      refine ⟨⟨s.node, orphans⟩, ⟨[], []⟩, by rw [result]; rfl, fun _ node accepted => ?_, fun _ hash member fresh pooled => ?_⟩
      · cases verdict.symm.trans accepted
      · cases fresh.symm.trans pooled
  | some node =>
      have accepted := acceptToMemoryPool_cases verdict
      obtain ⟨release, done, same, -⟩ := @releaseFor_spec env policy _ indexed node tx
      have traced : (noticedFor env policy tx s node).map NoticedRelease.toRelease = some release :=
        (releaseNoticed_release _ _ _).trans done
      obtain ⟨r, run, rfl⟩ := Option.map_eq_some_iff.mp traced
      have start : (releaseStart env s node tx).Accounted s.node tx := releaseStart_accounted accepted
      obtain ⟨final, -⟩ := (NoticedRelease.Accounted.mk start.pooled start.synced :
        NoticedRelease.Accounted s.node tx ⟨⟨node, s.orphans, [env.txHash tx], [env.txHash tx]⟩,
          ⟨[tx], [(tx, env.txHash tx)]⟩⟩).release indexed run
      obtain ⟨kept, -⟩ := eraseAll_spec r.vEraseQueue (indexed.congr same)
      refine ⟨⟨r.node, r.vEraseQueue.foldl eraseOrphanTx r.orphans⟩, r.toNotices, by dsimp only; rw [run]; rfl,
        fun hears other found => ?_, fun alone hash member fresh pooled => ?_⟩
      · cases verdict.symm.trans found
        intro hash waits orphanTx known
        by_contra follows
        obtain ⟨follower, fresh, pooled, unheard⟩ :=
          follower_unheard indexed accepted run ⟨hash, waits, orphanTx, known, follows⟩
        exact unheard (hears _ _ fresh pooled).1
      · obtain rfl := alone_pooled indexed accepted run (alone node verdict) fresh pooled
        rcases final.pooled hash member pooled with old | ⟨relayed, erased⟩
        · cases fresh.symm.trans old
        · have gone : (r.vEraseQueue.foldl eraseOrphanTx r.orphans).orphan hash = none := by
            rw [eraseAll_orphan, if_pos erased]
          refine ⟨(final.synced member).mpr rfl, relayed, gone, fun hashPrev waits => ?_⟩
          obtain ⟨orphanTx, found, -⟩ := (kept.index hashPrev hash).mp waits
          cases gone.symm.trans found

/-- After every run, of any node and with any orphans, a message lets everyone hear of what it pools exactly when no
orphan follows the transaction it brings. -/
theorem accepted_transactions_heard_iff (node : Node) (events : List TxEvent)
    (run : txRun env policy ⟨node, .empty⟩ events = some s) (getRandHash : Nat → UInt256) (tx : CTransaction) :
    ∃ after notices, processTxNoticed env policy tx getRandHash s = some (after, notices) ∧
      (EveryoneHears s after notices ↔ NoneFollows env policy s tx) := by
  obtain ⟨ends, -⟩ := @txRun_spec env policy events ⟨node, .empty⟩ (empty_bounded env)
  obtain ⟨reached, again, bounded⟩ := ends events List.prefix_rfl
  cases run.symm.trans again
  exact everyoneHears_iff bounded.indexed getRandHash tx

end Heard

section Concrete

/-- A transaction that spends `spender`, and so is an orphan while that is unknown. -/
def follower : CTransaction := .labelledSpend 22 1000 ⟨20, 0⟩ (1000 * coin - 20000)

/-- The message brings a transaction that no orphan waits for. -/
theorem spender_heard :
    ∃ after notices, processTxNoticed (Env.labelled true) .lax spender (fun _ => 0) ⟨poolStart, .empty⟩ =
      some (after, notices) ∧ EveryoneHears ⟨poolStart, .empty⟩ after notices := by
  obtain ⟨after, notices, result, iff⟩ := @accepted_transactions_heard_iff (.labelled true) .lax
    ⟨poolStart, .empty⟩ poolStart [] rfl (fun _ => 0) spender
  exact ⟨after, notices, result, iff.mpr fun _ _ hash member => (List.not_mem_nil member).elim⟩

/-- An orphan comes before its parent. It is accepted after the parent, and the wallets get the parent twice. -/
theorem follower_not_heard :
    ¬∀ (env : Env) (policy : Policy) (node : Node) (events : List TxEvent) (s after : TxNode) (notices : Notices)
      (getRandHash : Nat → UInt256) (tx : CTransaction), txRun env policy ⟨node, .empty⟩ events = some s →
        processTxNoticed env policy tx getRandHash s = some (after, notices) → EveryoneHears s after notices := by
  intro claim
  have value : ((txRun (Env.labelled true) .lax ⟨poolStart, .empty⟩ [.message follower fun _ => 0]).bind fun s =>
      (processTxNoticed (Env.labelled true) .lax spender (fun _ => 0) s).map fun result =>
        (s.node.mempool.lookup 22, result.1.node.mempool.lookup 22, result.2.synced)) =
          some (none, some follower, [spender, spender]) := by
    decide +kernel
  obtain ⟨s, run, value⟩ := Option.bind_eq_some_iff.mp value
  obtain ⟨⟨after, notices⟩, result, values⟩ := Option.map_eq_some_iff.mp value
  obtain ⟨fresh, rest⟩ := Prod.mk.inj values
  obtain ⟨pooled, synced⟩ := Prod.mk.inj rest
  have heard := (claim _ _ _ _ s after notices _ _ run result 22 follower fresh pooled).1
  dsimp only at synced
  rw [synced] at heard
  exact absurd heard (by decide +kernel)

end Concrete

end InfiniteRicks
