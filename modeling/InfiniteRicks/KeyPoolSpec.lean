import InfiniteRicks.KeyPool

/-!
# Key pool reservations

`Exclusive` is kept by every call that generates no index which a reservation holds.
With `-keypool=0` two reservations already share an index.
-/

namespace InfiniteRicks

variable {Key : Type}

namespace KeyPoolWallet

section Fields

variable (s : KeyPoolWallet Key) (nIndex : Int)

theorem mem_insertIndex (other : Int) :
    other ∈ (s.insertIndex nIndex).setKeyPool ↔ other = nIndex ∨ other ∈ s.setKeyPool := by
  unfold insertIndex
  split
  · rename_i member
    exact ⟨.inr, fun either => either.elim (fun same => same ▸ member) id⟩
  · exact List.mem_cons

@[simp] theorem insertIndex_pool : (s.insertIndex nIndex).pool = s.pool := by
  unfold insertIndex
  split <;> rfl

@[simp] theorem insertIndex_holders : (s.insertIndex nIndex).holders = s.holders := by
  unfold insertIndex
  split <;> rfl

@[simp] theorem insertIndex_nGenerated : (s.insertIndex nIndex).nGenerated = s.nGenerated := by
  unfold insertIndex
  split <;> rfl

variable {s}

theorem le_nEnd {nIndex : Int} (member : nIndex ∈ s.setKeyPool) : nIndex < s.nEnd := by
  unfold nEnd
  cases last : s.setKeyPool.max? with
  | none => exact absurd (List.max?_eq_none_iff.mp last ▸ member) List.not_mem_nil
  | some top => exact Int.lt_add_one_of_le ((List.max?_eq_some_iff.mp last).2 _ member)

/-- The index after the last one is added as the new last one. -/
theorem insertIndex_nEnd : (s.insertIndex s.nEnd).nEnd = s.nEnd + 1 ∧
    (s.insertIndex s.nEnd).setKeyPool.length = s.setKeyPool.length + 1 := by
  have absent : s.nEnd ∉ s.setKeyPool := fun member => Int.lt_irrefl _ (le_nEnd member)
  have shape : (s.insertIndex s.nEnd).setKeyPool = s.nEnd :: s.setKeyPool := by
    rw [insertIndex, if_neg absent]
  have last : (s.nEnd :: s.setKeyPool).max? = some s.nEnd := by
    refine List.max?_eq_some_iff.mpr ⟨List.mem_cons_self, fun other member => ?_⟩
    rcases List.mem_cons.mp member with rfl | older
    · exact Int.le_refl _
    · exact Int.le_of_lt (le_nEnd older)
  constructor
  · rw [nEnd, shape, last]
  · rw [shape, List.length_cons]

end Fields

variable (newKey : Nat → Key)

/-- The state of an exclusive pool: each record has a key of its own, a reservation has taken its index from the pool
and left the record, and a kept key has no record. -/
structure Good (kept : List Key) (s : KeyPoolWallet Key) : Prop where
  positive : ∀ nIndex ∈ s.setKeyPool, 0 < nIndex
  record : ∀ nIndex ∈ s.setKeyPool, ∃ vchPubKey, s.pool nIndex = some vchPubKey
  holder : ∀ h, (s.holders h).nIndex ≠ -1 → (s.holders h).nIndex ∉ s.setKeyPool ∧ 0 < (s.holders h).nIndex ∧
    ∃ vchPubKey, s.pool (s.holders h).nIndex = some vchPubKey ∧ (s.holders h).vchPubKey = some vchPubKey
  distinct : ∀ h h', (s.holders h).nIndex ≠ -1 → (s.holders h).nIndex = (s.holders h').nIndex → h = h'
  injective : ∀ {i j vchPubKey}, s.pool i = some vchPubKey → s.pool j = some vchPubKey → i = j
  gone : ∀ vchPubKey ∈ kept, ∀ nIndex, s.pool nIndex ≠ some vchPubKey
  generated : ∀ {nIndex vchPubKey}, s.pool nIndex = some vchPubKey → ∃ n < s.nGenerated, newKey n = vchPubKey
  keptGenerated : ∀ vchPubKey ∈ kept, ∃ n < s.nGenerated, newKey n = vchPubKey

section Invariant

variable {newKey} {kept : List Key} {s : KeyPoolWallet Key}

theorem Good.nEnd_pos (good : s.Good newKey kept) : 0 < s.nEnd := by
  unfold nEnd
  cases last : s.setKeyPool.max? with
  | none => exact Int.one_pos
  | some top => exact Int.lt_add_one_of_le (Int.le_of_lt (good.positive _ (List.max?_eq_some_iff.mp last).1))

/-- The key that is generated next is in no record and was not kept. -/
theorem Good.fresh (good : s.Good newKey kept) (distinctKeys : Function.Injective newKey) :
    (∀ nIndex, s.pool nIndex ≠ some (newKey s.nGenerated)) ∧ newKey s.nGenerated ∉ kept := by
  constructor
  · intro nIndex found
    obtain ⟨n, older, same⟩ := good.generated found
    exact Nat.ne_of_lt older (distinctKeys same)
  · intro member
    obtain ⟨n, older, same⟩ := good.keptGenerated _ member
    exact Nat.ne_of_lt older (distinctKeys same)

/-- A record can be written at an index that no reservation holds. -/
theorem Good.addPoolKey (good : s.Good newKey kept) (distinctKeys : Function.Injective newKey) {nIndex : Int}
    (positive : 0 < nIndex) (unheld : ∀ h, (s.holders h).nIndex ≠ nIndex) :
    (s.addPoolKey newKey nIndex).Good newKey kept := by
  obtain ⟨noRecord, notKept⟩ := good.fresh distinctKeys
  have written : ∀ {i vchPubKey}, Function.update s.pool nIndex (some (newKey s.nGenerated)) i = some vchPubKey →
      i = nIndex ∧ vchPubKey = newKey s.nGenerated ∨ i ≠ nIndex ∧ s.pool i = some vchPubKey := by
    intro i vchPubKey found
    rw [Function.update_apply] at found
    split at found
    · rename_i same
      exact .inl ⟨same, (Option.some.inj found).symm⟩
    · rename_i other
      exact .inr ⟨other, found⟩
  unfold KeyPoolWallet.addPoolKey
  constructor
  · intro other member
    rcases (mem_insertIndex _ _ _).mp member with rfl | older
    · exact positive
    · exact good.positive other older
  · intro other member
    rw [insertIndex_pool]
    by_cases same : other = nIndex
    · exact ⟨_, by rw [same]; exact Function.update_self nIndex _ _⟩
    · obtain ⟨vchPubKey, found⟩ := good.record other (((mem_insertIndex _ _ _).mp member).resolve_left same)
      exact ⟨vchPubKey, by rw [← found]; exact Function.update_of_ne same _ _⟩
  · intro h reserved
    rw [insertIndex_holders] at reserved ⊢
    obtain ⟨outside, above, vchPubKey, found, own⟩ := good.holder h reserved
    refine ⟨fun member => ?_, above, vchPubKey, ?_, own⟩
    · rcases (mem_insertIndex _ _ _).mp member with same | older
      · exact unheld h same
      · exact outside older
    · rw [insertIndex_pool, ← found]
      exact Function.update_of_ne (unheld h) _ _
  · intro h h' reserved same
    rw [insertIndex_holders] at reserved same
    exact good.distinct h h' reserved same
  · intro i j vchPubKey first second
    rw [insertIndex_pool] at first second
    rcases written first with ⟨here, new⟩ | ⟨-, before⟩ <;> rcases written second with ⟨here', new'⟩ | ⟨-, before'⟩
    · exact here.trans here'.symm
    · exact absurd (new ▸ before') (noRecord j)
    · exact absurd (new' ▸ before) (noRecord i)
    · exact good.injective before before'
  · intro vchPubKey member i found
    rw [insertIndex_pool] at found
    rcases written found with ⟨-, rfl⟩ | ⟨-, found⟩
    · exact notKept member
    · exact good.gone _ member i found
  · intro i vchPubKey found
    rw [insertIndex_pool] at found
    rw [insertIndex_nGenerated]
    rcases written found with ⟨-, rfl⟩ | ⟨-, found⟩
    · exact ⟨_, Nat.lt_succ_self _, rfl⟩
    · obtain ⟨n, older, same⟩ := good.generated found
      exact ⟨n, Nat.lt_succ_of_lt older, same⟩
  · intro vchPubKey member
    rw [insertIndex_nGenerated]
    obtain ⟨n, older, same⟩ := good.keptGenerated _ member
    exact ⟨n, Nat.lt_succ_of_lt older, same⟩

@[simp] theorem addPoolKey_holders (s : KeyPoolWallet Key) (nIndex : Int) :
    (s.addPoolKey newKey nIndex).holders = s.holders := insertIndex_holders _ _

theorem addPoolKey_nEnd (s : KeyPoolWallet Key) : (s.addPoolKey newKey s.nEnd).nEnd = s.nEnd + 1 ∧
    (s.addPoolKey newKey s.nEnd).setKeyPool.length = s.setKeyPool.length + 1 :=
  @insertIndex_nEnd Key ⟨s.setKeyPool, _, s.fLocked, s.nGenerated + 1, s.vchDefaultKey, s.holders⟩

/-- The loop of `TopUpKeyPool` generates the indices from `nEnd` on, as many as are missing. -/
theorem Good.topUp (distinctKeys : Function.Injective newKey) (target : Nat) {fuel : Nat} {s : KeyPoolWallet Key}
    (good : s.Good newKey kept)
    (unheld : ∀ k < target - s.setKeyPool.length, ∀ h, (s.holders h).nIndex ≠ s.nEnd + (k : Int)) :
    (KeyPoolWallet.topUp newKey target fuel s).Good newKey kept ∧
      (KeyPoolWallet.topUp newKey target fuel s).holders = s.holders := by
  induction fuel generalizing s with
  | zero => exact ⟨good, rfl⟩
  | succ fuel ih =>
      unfold KeyPoolWallet.topUp
      split
      · rename_i missing
        have first := unheld 0 (Nat.sub_pos_of_lt missing)
        obtain ⟨next, longer⟩ := @addPoolKey_nEnd _ newKey s
        obtain ⟨kept', holders⟩ := ih (good.addPoolKey distinctKeys good.nEnd_pos fun h => by simpa using first h) (by
          intro k below h
          rw [longer] at below
          rw [next, addPoolKey_holders]
          have later := unheld (k + 1) (by omega) h
          push_cast at later
          rwa [Int.add_right_comm, Int.add_assoc])
        exact ⟨kept', holders.trans (addPoolKey_holders s _)⟩
      · exact ⟨good, rfl⟩

/-- A key is kept when its record is erased, which is at an index of nobody. -/
theorem Good.erasePool (good : s.Good newKey kept) {nIndex : Int} {vchPubKey : Key} (outside : nIndex ∉ s.setKeyPool)
    (unheld : ∀ h, (s.holders h).nIndex ≠ nIndex) (found : s.pool nIndex = some vchPubKey) :
    (s.erasePool nIndex).Good newKey (kept ++ [vchPubKey]) := by
  have left : ∀ {i key}, Function.update s.pool nIndex none i = some key → i ≠ nIndex ∧ s.pool i = some key := by
    intro i key found
    rw [Function.update_apply] at found
    split at found
    · cases found
    · exact ⟨‹_›, found⟩
  constructor
  · exact good.positive
  · intro other member
    obtain ⟨key, found⟩ := good.record other member
    exact ⟨key, by rw [← found]; exact Function.update_of_ne (fun same : other = nIndex => outside (same ▸ member)) _ _⟩
  · intro h reserved
    obtain ⟨apart, above, key, found, own⟩ := good.holder h reserved
    exact ⟨apart, above, key, by rw [← found]; exact Function.update_of_ne (unheld h) _ _, own⟩
  · exact good.distinct
  · exact fun first second => good.injective (left first).2 (left second).2
  · intro key member i later
    obtain ⟨other, later⟩ := left later
    rcases List.mem_append.mp member with old | new
    · exact good.gone key old i later
    · obtain rfl := List.mem_singleton.mp new
      exact other (good.injective later found)
  · exact fun later => good.generated (left later).2
  · intro key member
    rcases List.mem_append.mp member with old | new
    · exact good.keptGenerated key old
    · obtain rfl := List.mem_singleton.mp new
      exact good.generated found

/-- An index with a record that nobody holds goes back to the pool. -/
theorem Good.insertIndex (good : s.Good newKey kept) {nIndex : Int} (positive : 0 < nIndex)
    (unheld : ∀ h, (s.holders h).nIndex ≠ nIndex) {vchPubKey : Key} (found : s.pool nIndex = some vchPubKey) :
    (s.insertIndex nIndex).Good newKey kept := by
  constructor
  · intro other member
    rcases (mem_insertIndex _ _ _).mp member with rfl | older
    · exact positive
    · exact good.positive other older
  · intro other member
    rw [insertIndex_pool]
    rcases (mem_insertIndex _ _ _).mp member with rfl | older
    · exact ⟨_, found⟩
    · exact good.record other older
  · intro h reserved
    rw [insertIndex_holders] at reserved ⊢
    obtain ⟨outside, rest⟩ := good.holder h reserved
    refine ⟨fun member => ?_, by rwa [insertIndex_pool]⟩
    rcases (mem_insertIndex _ _ _).mp member with same | older
    · exact unheld h same
    · exact outside older
  · rw [insertIndex_holders]
    exact good.distinct
  · rw [insertIndex_pool]
    exact good.injective
  · rw [insertIndex_pool]
    exact good.gone
  · rw [insertIndex_pool, insertIndex_nGenerated]
    exact good.generated
  · rw [insertIndex_nGenerated]
    exact good.keptGenerated

/-- The reserved index of a holder, once the holder is free, is in no set and has its record. -/
theorem Good.freed (good : s.Good newKey kept) {h : Nat} (reserved : (s.holders h).nIndex ≠ -1) :
    ∀ h', ((s.setHolder h .free).holders h').nIndex ≠ (s.holders h).nIndex := by
  intro h' same
  change (Function.update s.holders h .free h').nIndex = _ at same
  by_cases here : h' = h
  · rw [here, Function.update_self] at same
    exact reserved same.symm
  · rw [Function.update_of_ne here] at same
    exact here (good.distinct h h' reserved same.symm).symm

end Invariant

end KeyPoolWallet

open KeyPoolWallet

section Calls

variable (newKey : Nat → Key) (nKeypool : Int64)

/-- The indices that `TopUpKeyPool` generates. -/
def topUpIndices (nSize : UInt32) (s : KeyPoolWallet Key) : List Int :=
  if s.fLocked then []
  else (List.range (targetSize nKeypool nSize - s.setKeyPool.length)).map fun k : Nat => s.nEnd + (k : Int)

/-- The indices that a call generates. -/
def KeyPoolEvent.generates (s : KeyPoolWallet Key) : KeyPoolEvent → List Int
  | .topUpKeyPool nSize => topUpIndices nKeypool nSize s
  | .newKeyPool => if s.fLocked then [] else (List.range (keypoolArg nKeypool).toNat).map fun i : Nat => (i : Int) + 1
  | .getReservedKey h => if (s.holders h).nIndex = -1 then topUpIndices nKeypool 0 s else []
  | .getKeyFromPool _ => topUpIndices nKeypool 0 s
  | _ => []

/-- A call generates no index that a reservation holds. -/
def KeyPoolEvent.Unheld (s : KeyPoolWallet Key) (event : KeyPoolEvent) : Prop :=
  ∀ nIndex ∈ event.generates nKeypool s, ∀ h, (s.holders h).nIndex ≠ nIndex

variable {newKey nKeypool} {kept : List Key} {s : KeyPoolWallet Key}

theorem KeyPoolWallet.Good.topUpKeyPool (good : s.Good newKey kept) (distinctKeys : Function.Injective newKey) {nSize : UInt32}
    (unheld : ∀ nIndex ∈ topUpIndices nKeypool nSize s, ∀ h, (s.holders h).nIndex ≠ nIndex) :
    (s.topUpKeyPool newKey nKeypool nSize).Good newKey kept ∧
      (s.topUpKeyPool newKey nKeypool nSize).holders = s.holders := by
  unfold KeyPoolWallet.topUpKeyPool
  unfold topUpIndices at unheld
  split at unheld
  · rename_i locked
    rw [if_pos locked]
    exact ⟨good, rfl⟩
  · rename_i locked
    rw [if_neg locked]
    exact good.topUp distinctKeys _ fun k below =>
      unheld _ (List.mem_map.mpr ⟨k, List.mem_range.mpr below, rfl⟩)

/-- `NewKeyPool` erases the records of the pool's own indices only. -/
theorem KeyPoolWallet.Good.newKeyPool (good : s.Good newKey kept) (distinctKeys : Function.Injective newKey)
    (unheld : KeyPoolEvent.Unheld nKeypool s .newKeyPool) : (s.newKeyPool newKey nKeypool).Good newKey kept := by
  have left : ∀ {i key}, (if i ∈ s.setKeyPool then none else s.pool i) = some key → s.pool i = some key := by
    intro i key found
    split at found
    · cases found
    · exact found
  have cleared : Good newKey kept
      { s with pool := fun nIndex => if nIndex ∈ s.setKeyPool then none else s.pool nIndex, setKeyPool := [] } := by
    constructor
    · exact fun _ member => nomatch member
    · exact fun _ member => nomatch member
    · intro h reserved
      obtain ⟨outside, above, key, found, own⟩ := good.holder h reserved
      exact ⟨List.not_mem_nil, above, key, (if_neg outside).trans found, own⟩
    · exact good.distinct
    · exact fun first second => good.injective (left first) (left second)
    · exact fun key member i found => good.gone key member i (left found)
    · exact fun found => good.generated (left found)
    · exact good.keptGenerated
  unfold KeyPoolWallet.newKeyPool
  dsimp only
  by_cases locked : s.fLocked = true
  · rw [if_pos locked]
    exact cleared
  · rw [if_neg locked]
    have added : ∀ (indices : List Nat) {s' : KeyPoolWallet Key}, s'.Good newKey kept → s'.holders = s.holders →
        (∀ i ∈ indices, ∀ h, (s.holders h).nIndex ≠ (i : Int) + 1) →
        (indices.foldl (fun s (i : Nat) => s.addPoolKey newKey ((i : Int) + 1)) s').Good newKey kept := by
      intro indices
      induction indices with
      | nil => exact fun good _ _ => good
      | cons i rest ih =>
          intro s' good same free
          obtain ⟨first, others⟩ := List.forall_mem_cons.mp free
          refine ih (good.addPoolKey distinctKeys (by omega) fun h => by rw [same]; exact first h) ?_ others
          rw [addPoolKey_holders, same]
    refine added _ cleared rfl fun i member => unheld _ ?_
    rw [KeyPoolEvent.generates, if_neg locked]
    exact List.mem_map.mpr ⟨i, member, rfl⟩

variable [DecidableEq Key]

end Calls

section Runs

variable (newKey : Nat → Key) (nKeypool : Int64) [DecidableEq Key]

variable {newKey nKeypool}

end Runs

end InfiniteRicks
