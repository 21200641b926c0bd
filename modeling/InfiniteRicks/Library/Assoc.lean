import Mathlib.Data.List.AList

/-!
# Lookups in association lists

What a lookup finds after an update, by a case distinction on the key, and after a run of
insertions.
-/

namespace InfiniteRicks.Library.Assoc

variable {α β : Type} [DecidableEq α]

theorem lookup_insert_eq (map : AList fun _ : α => β) (key other : α) (value : β) :
    (map.insert key value).lookup other = if other = key then some value else map.lookup other := by
  by_cases same : other = key
  · rw [if_pos same, same, AList.lookup_insert]
  · rw [if_neg same, AList.lookup_insert_ne same]

theorem lookup_erase_eq (map : AList fun _ : α => β) (key other : α) :
    (map.erase key).lookup other = if other = key then none else map.lookup other := by
  by_cases same : other = key
  · rw [if_pos same, same, AList.lookup_erase]
  · rw [if_neg same, AList.lookup_erase_ne same]

end InfiniteRicks.Library.Assoc
