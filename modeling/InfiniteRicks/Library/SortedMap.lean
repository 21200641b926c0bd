import Mathlib.Data.List.Induction
import Mathlib.Data.List.Nodup
import Mathlib.Data.List.Perm.Basic
import Std.Data.ExtTreeMap.Lemmas

/-!
# Sorted maps filled from a list

An item takes the place of an earlier one with its key. So the map has as many entries as the list has
items only where the keys are distinct, and then its entries are the items in another order.
-/

namespace InfiniteRicks.Library.SortedMap

open Std

variable {α β : Type} {cmp : α → α → Ordering} [TransCmp cmp]

/-- The map after the assignments of the items, one after the other. -/
def filled (cmp : α → α → Ordering) [TransCmp cmp] (items : List (α × β)) : ExtTreeMap α β cmp :=
  items.foldl (fun map item => map.insert item.1 item.2) ∅

theorem filled_concat (items : List (α × β)) (item : α × β) :
    filled cmp (items ++ [item]) = (filled cmp items).insert item.1 item.2 := by
  rw [filled, List.foldl_append]
  rfl

theorem size_filled_le (items : List (α × β)) : (filled cmp items).size ≤ items.length := by
  induction items using List.reverseRecOn with
  | nil => simp [filled]
  | append_singleton items item ih =>
      have grown := ExtTreeMap.size_insert_le (t := filled cmp items) (k := item.1) (v := item.2)
      rw [filled_concat, List.length_append, List.length_singleton]
      omega

variable [LawfulEqCmp cmp]

theorem mem_filled {items : List (α × β)} {key : α} : key ∈ filled cmp items ↔ key ∈ items.map Prod.fst := by
  induction items using List.reverseRecOn with
  | nil => simp [filled]
  | append_singleton items item ih =>
      rw [filled_concat, ExtTreeMap.mem_insert, ih, LawfulEqCmp.compare_eq_iff_eq, List.map_append, List.mem_append,
        List.map_singleton, List.mem_singleton, or_comm, eq_comm]

theorem isEmpty_filled (items : List (α × β)) : (filled cmp items).isEmpty = items.isEmpty := by
  cases items with
  | nil => exact ExtTreeMap.isEmpty_empty
  | cons item rest =>
      refine Bool.eq_false_iff.mpr fun empty => ?_
      have stored : item.1 ∈ filled cmp (item :: rest) := mem_filled.mpr (List.mem_map_of_mem List.mem_cons_self)
      rw [ExtTreeMap.isEmpty_iff.mp empty] at stored
      exact ExtTreeMap.not_mem_empty stored

/-- No item has taken the place of another. -/
theorem nodup_of_size {items : List (α × β)} (whole : (filled cmp items).size = items.length) :
    (items.map Prod.fst).Nodup := by
  induction items using List.reverseRecOn with
  | nil => exact List.nodup_nil
  | append_singleton items item ih =>
      have fewer : (filled cmp items).size ≤ items.length := size_filled_le items
      rw [filled_concat, ExtTreeMap.size_insert, List.length_append, List.length_singleton] at whole
      split at whole
      · omega
      · rename_i new
        have absent : item.1 ∉ items.map Prod.fst := fun known =>
          new (ExtTreeMap.contains_iff_mem.mpr (mem_filled.mpr known))
        rw [List.map_append, List.map_singleton]
        exact List.nodup_append.mpr ⟨ih (by omega), List.nodup_singleton _, fun key known other single same =>
          absent (List.mem_singleton.mp single ▸ same ▸ known)⟩

theorem nodup_toList (map : ExtTreeMap α β cmp) : map.toList.Nodup :=
  ExtTreeMap.distinct_keys_toList.imp fun apart same =>
    apart (LawfulEqCmp.compare_eq_iff_eq.mpr (congrArg Prod.fst same))

variable [DecidableEq α]

theorem getElem?_filled_concat (items : List (α × β)) (item : α × β) (key : α) :
    (filled cmp (items ++ [item]))[key]? = if item.1 = key then some item.2 else (filled cmp items)[key]? := by
  rw [filled_concat, ExtTreeMap.getElem?_insert]
  simp only [LawfulEqCmp.compare_eq_iff_eq]

/-- Every entry is one of the items. -/
theorem mem_of_mem_toList {items : List (α × β)} {entry : α × β} (stored : entry ∈ (filled cmp items).toList) :
    entry ∈ items := by
  have found : (filled cmp items)[entry.1]? = some entry.2 := ExtTreeMap.mem_toList_iff_getElem?_eq_some.mp stored
  clear stored
  induction items using List.reverseRecOn with
  | nil => simp [filled] at found
  | append_singleton items item ih =>
      rw [getElem?_filled_concat] at found
      split at found
      · rename_i same
        have : entry = item := Prod.ext same.symm (Option.some.inj found).symm
        rw [this]
        exact List.mem_append_right _ (List.mem_singleton_self item)
      · exact List.mem_append_left _ (ih found)

/-- Where the keys are distinct, the entries are the items. -/
theorem filled_perm {items : List (α × β)} (distinct : (items.map Prod.fst).Nodup) :
    (filled cmp items).toList.Perm items := by
  refine (List.perm_ext_iff_of_nodup (nodup_toList _) distinct.of_map).mpr fun entry => ⟨mem_of_mem_toList, ?_⟩
  intro member
  rw [ExtTreeMap.mem_toList_iff_getElem?_eq_some]
  induction items using List.reverseRecOn with
  | nil => cases member
  | append_singleton items item ih =>
      rw [List.map_append, List.map_singleton] at distinct
      obtain ⟨earlier, -, apart⟩ := List.nodup_append.mp distinct
      rw [getElem?_filled_concat]
      rcases List.mem_append.mp member with before | last
      · rw [if_neg (apart _ (List.mem_map_of_mem before) _ (List.mem_singleton_self _)).symm]
        exact ih earlier before
      · rw [List.mem_singleton.mp last, if_pos rfl]

end InfiniteRicks.Library.SortedMap
