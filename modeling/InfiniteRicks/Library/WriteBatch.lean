import Mathlib.Logic.Function.Basic
import Mathlib.Data.List.Induction

/-!
# Key-value stores with a pending write batch

A store is a partial map; a batch is a list of puts and deletes in the order in
which they were queued. `replay` applies a batch, `scan` searches it for the last
operation on one key, and `replay_apply` says that searching the batch first and
the store second reads the replayed store.
-/

namespace InfiniteRicks.Library.WriteBatch

variable {κ ν : Type*} [DecidableEq κ]

/-- One queued operation. -/
inductive Op (κ ν : Type*) where
  | put (key : κ) (value : ν)
  | delete (key : κ)

/-- The key that an operation is about. -/
def Op.key : Op κ ν → κ
  | .put key _ => key
  | .delete key => key

/-- Apply one operation to a store. -/
def Op.apply (store : κ → Option ν) : Op κ ν → κ → Option ν
  | .put key value => Function.update store key (some value)
  | .delete key => Function.update store key none

/-- Apply a batch in queue order. -/
def replay (store : κ → Option ν) (batch : List (Op κ ν)) : κ → Option ν :=
  batch.foldl Op.apply store

/-- The effect of the last operation on a key: `none` where the batch does not
mention it, `some none` for a delete. -/
def scan (key : κ) : List (Op κ ν) → Option (Option ν) → Option (Option ν)
  | [], found => found
  | .put other value :: rest, found => scan key rest (if other = key then some (some value) else found)
  | .delete other :: rest, found => scan key rest (if other = key then some none else found)

@[simp] theorem replay_nil (store : κ → Option ν) : replay store [] = store := rfl

theorem replay_append (store : κ → Option ν) (first second : List (Op κ ν)) :
    replay store (first ++ second) = replay (replay store first) second :=
  List.foldl_append

@[simp] theorem replay_concat_put (store : κ → Option ν) (batch : List (Op κ ν)) (key : κ) (value : ν) :
    replay store (batch ++ [.put key value]) = Function.update (replay store batch) key (some value) := by
  rw [replay_append]
  rfl

@[simp] theorem replay_concat_delete (store : κ → Option ν) (batch : List (Op κ ν)) (key : κ) :
    replay store (batch ++ [.delete key]) = Function.update (replay store batch) key none := by
  rw [replay_append]
  rfl

/-- Scanning with an earlier finding that agrees with a store reads what the
batch makes of that store. -/
theorem scan_getD {key : κ} {batch : List (Op κ ν)} {store : κ → Option ν} {base : Option ν}
    {found : Option (Option ν)} (agrees : found.getD base = store key) :
    (scan key batch found).getD base = replay store batch key := by
  induction batch generalizing store found with
  | nil => exact agrees
  | cons op rest ih =>
      cases op with
      | put other value =>
          refine ih (?_ : _ = Function.update store other (some value) key)
          by_cases same : other = key
          · subst same
            simp
          · simp [same, Function.update_of_ne (Ne.symm same), agrees]
      | delete other =>
          refine ih (?_ : _ = Function.update store other none key)
          by_cases same : other = key
          · subst same
            simp
          · simp [same, Function.update_of_ne (Ne.symm same), agrees]

/-- Searching the batch first and the store second reads the replayed store. -/
theorem replay_apply (store : κ → Option ν) (batch : List (Op κ ν)) (key : κ) :
    (scan key batch none).getD (store key) = replay store batch key :=
  scan_getD rfl

/-- The last operation of the batch on the key is a delete. -/
def ErasedLast (key : κ) (batch : List (Op κ ν)) : Prop :=
  ∃ earlier later, batch = earlier ++ .delete key :: later ∧ ∀ op ∈ later, op.key ≠ key

theorem scan_append (key : κ) (first second : List (Op κ ν)) (found : Option (Option ν)) :
    scan key (first ++ second) found = scan key second (scan key first found) := by
  induction first generalizing found with
  | nil => rfl
  | cons op rest ih =>
      cases op with
      | put other value => exact ih _
      | delete other => exact ih _

/-- Operations on other keys are passed over. -/
theorem scan_of_others {key : κ} {batch : List (Op κ ν)} (others : ∀ op ∈ batch, op.key ≠ key)
    (found : Option (Option ν)) : scan key batch found = found := by
  induction batch generalizing found with
  | nil => rfl
  | cons op rest ih =>
      have head := others op List.mem_cons_self
      have tail := ih fun op member => others op (List.mem_cons_of_mem _ member)
      cases op with
      | put other value => simpa [scan, show ¬ other = key from head] using tail found
      | delete other => simpa [scan, show ¬ other = key from head] using tail found

/-- A search ends at a delete exactly when the last operation on the key is one. -/
theorem scan_eq_erased_iff (key : κ) (batch : List (Op κ ν)) :
    scan key batch none = some none ↔ ErasedLast key batch := by
  constructor
  · intro found
    induction batch using List.reverseRecOn with
    | nil => cases found
    | append_singleton earlier op ih =>
        rw [scan_append] at found
        by_cases same : op.key = key
        · cases op with
          | put other value => simp [scan, show other = key from same] at found
          | delete other =>
              obtain rfl : other = key := same
              exact ⟨earlier, [], rfl, by simp⟩
        · rw [scan_of_others (by simpa using same)] at found
          obtain ⟨first, later, rfl, others⟩ := ih found
          refine ⟨first, later ++ [op], by simp, ?_⟩
          intro other member
          rcases List.mem_append.mp member with before | last
          · exact others other before
          · rw [List.mem_singleton.mp last]
            exact same
  · rintro ⟨earlier, later, rfl, others⟩
    rw [scan_append, scan, if_pos rfl, scan_of_others others]

end InfiniteRicks.Library.WriteBatch
