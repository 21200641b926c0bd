import Mathlib.Algebra.BigOperators.Fin
import Mathlib.Algebra.BigOperators.Group.Finset.Piecewise
import Mathlib.Algebra.Order.Group.Multiset

/-!
# Indexes of a table

Two ways in which indexes describe one table. A key and its place are found from each
other by a pair of partial functions that are `Inverse`. Entries are spread over buckets,
whose `contents` together are the multiset of what is in them. Each operation on an index
has a lemma that says what it does to the whole.
-/

namespace InfiniteRicks.Library.Tables

open Function

section Inverse

variable {α β : Type} {f : α → Option β} {g : β → Option α} {a a' : α} {b b' : β}

/-- Two partial functions that are inverse to each other. -/
def Inverse (f : α → Option β) (g : β → Option α) : Prop := ∀ a b, f a = some b ↔ g b = some a

theorem Inverse.symm (inverse : Inverse f g) : Inverse g f := fun b a => (inverse a b).symm

variable [DecidableEq α] [DecidableEq β]

theorem Inverse.insert (inverse : Inverse f g) (newKey : f a = none) (newPlace : g b = none) :
    Inverse (update f a (some b)) (update g b (some a)) := by
  intro x y
  by_cases key : x = a <;> by_cases place : y = b
  · subst key place
    simp only [update_self]
  · subst key
    simp only [update_self, update_of_ne place, Option.some.injEq, Ne.symm place, false_iff]
    intro found
    rw [← inverse, newKey] at found
    cases found
  · subst place
    simp only [update_self, update_of_ne key, Option.some.injEq, Ne.symm key, iff_false]
    intro found
    rw [inverse, newPlace] at found
    cases found
  · simp only [update_of_ne key, update_of_ne place]
    exact inverse x y

theorem Inverse.erase (inverse : Inverse f g) (known : f a = some b) :
    Inverse (update f a none) (update g b none) := by
  intro x y
  by_cases key : x = a <;> by_cases place : y = b
  · subst key place
    simp only [update_self, reduceCtorEq]
  · subst key
    simp only [update_self, update_of_ne place, reduceCtorEq, false_iff]
    intro found
    rw [← inverse, known] at found
    exact place (Option.some.inj found).symm
  · subst place
    simp only [update_self, update_of_ne key, reduceCtorEq, iff_false]
    intro found
    rw [inverse, (inverse a y).mp known] at found
    exact key (Option.some.inj found).symm
  · simp only [update_of_ne key, update_of_ne place]
    exact inverse x y

/-- Two keys change places. -/
theorem Inverse.swap (inverse : Inverse f g) (left : f a = some b) (right : f a' = some b') (apart : a ≠ a') :
    Inverse (update (update f a (some b')) a' (some b)) (update (update g b (some a')) b' (some a)) := by
  have placesApart : b ≠ b' := by
    rintro rfl
    rw [inverse] at left right
    exact apart (Option.some.inj (left.symm.trans right))
  have removed := (inverse.erase left).erase (a := a') (b := b') (by rwa [update_of_ne apart.symm])
  have first := removed.insert (a := a) (b := b') (by rw [update_of_ne apart, update_self])
    (update_self _ _ _)
  have second := first.insert (a := a') (b := b) (by rw [update_of_ne apart.symm, update_self])
    (by rw [update_of_ne placesApart, update_of_ne placesApart, update_self])
  have keys : update (update (update (update f a none) a' none) a (some b')) a' (some b) =
      update (update f a (some b')) a' (some b) := by
    rw [update_comm apart none none f, update_idem, update_comm apart.symm none (some b') f, update_idem]
  have places : update (update (update (update g b none) b' none) b' (some a)) b (some a') =
      update (update g b (some a')) b' (some a) := by
    rw [update_idem, update_comm placesApart none (some a) g, update_idem, update_comm placesApart]
  rwa [keys, places] at second

end Inverse

section Slots

variable {α : Type}

/-- What stands at a position of a list. -/
def slot (list : List α) (pos : Int) : Option α := if 0 ≤ pos then list[pos.toNat]? else none

@[simp] theorem slot_natCast (list : List α) (pos : Nat) : slot list pos = list[pos]? := by
  rw [slot, if_pos (Int.natCast_nonneg pos), Int.toNat_natCast]

theorem slot_eq_some_iff {list : List α} {pos : Int} {a : α} :
    slot list pos = some a ↔ ∃ index : Nat, pos = index ∧ list[index]? = some a := by
  constructor
  · intro found
    by_cases range : 0 ≤ pos
    · rw [slot, if_pos range] at found
      exact ⟨pos.toNat, by omega, found⟩
    · rw [slot, if_neg range] at found
      cases found
  · rintro ⟨index, rfl, found⟩
    rwa [slot_natCast]

theorem slot_set {list : List α} {index : Nat} (range : index < list.length) (a : α) :
    slot (list.set index a) = update (slot list) index (some a) := by
  funext pos
  by_cases same : pos = index
  · rw [same, update_self, slot_natCast, List.getElem?_set_self range]
  · rw [update_of_ne same, slot, slot]
    split_ifs with inRange
    · rw [List.getElem?_set_ne (by omega)]
    · rfl

theorem slot_append (list : List α) (a : α) : slot (list ++ [a]) = update (slot list) list.length (some a) := by
  funext pos
  by_cases same : pos = list.length
  · rw [same, update_self, slot_natCast, List.getElem?_concat_length]
  · rw [update_of_ne same, slot, slot]
    by_cases range : 0 ≤ pos
    · rw [if_pos range, if_pos range, List.getElem?_append]
      split_ifs with short
      · rfl
      · rw [List.getElem?_eq_none (by simp only [List.length_singleton]; omega), List.getElem?_eq_none (by omega)]
    · rw [if_neg range, if_neg range]

theorem slot_dropLast {list : List α} {last : Nat} (length : list.length = last + 1) :
    slot list.dropLast = update (slot list) last none := by
  funext pos
  by_cases same : pos = last
  · rw [same, update_self, slot_natCast, List.getElem?_eq_none (by rw [List.length_dropLast]; omega)]
  · rw [update_of_ne same, slot, slot, List.getElem?_dropLast]
    split_ifs with range short
    · rfl
    · exact (List.getElem?_eq_none (by omega)).symm
    · rfl

end Slots

section Contents

variable {κ ι : Type} [Fintype κ] (buckets : κ → Multiset ι)

/-- What is in some bucket, as often as it is in one. -/
def contents : Multiset ι := ∑ bucket, buckets bucket

variable {buckets} in
theorem mem_contents {id : ι} : id ∈ contents buckets ↔ ∃ bucket, id ∈ buckets bucket := by
  rw [contents, Multiset.mem_sum]
  simp only [Finset.mem_univ, true_and]

theorem contents_eq_zero (nothing : ∀ bucket, buckets bucket = 0) : contents buckets = 0 :=
  Finset.sum_eq_zero fun bucket _ => nothing bucket

theorem count_contents [DecidableEq ι] (id : ι) :
    (contents buckets).count id = ∑ bucket, (buckets bucket).count id := by
  rw [contents, Multiset.count_sum']

/-- What is in the buckets, one after another. -/
theorem contents_eq_coe {count : Nat} {α : Type} (lists : Fin count → List α) :
    contents (fun bucket => (lists bucket : Multiset α)) = ((List.finRange count).flatMap lists : List α) := by
  have joined : ∀ order : List (Fin count), (order.map fun bucket => (lists bucket : Multiset α)).sum =
      (order.flatMap lists : List α) := by
    intro order
    induction order with
    | nil => rfl
    | cons bucket rest ih =>
        rw [List.map_cons, List.sum_cons, List.flatMap_cons, ih, Multiset.coe_add]
  rw [contents, Fin.sum_univ_def, joined]

variable [DecidableEq κ] (bucket : κ)

/-- A bucket is replaced. -/
theorem contents_update (new : Multiset ι) :
    contents (update buckets bucket new) + buckets bucket = contents buckets + new := by
  rw [contents, contents, Finset.sum_update_of_mem (Finset.mem_univ bucket),
    ← Finset.sum_sdiff (Finset.subset_univ {bucket}), Finset.sum_singleton]
  ac_rfl

theorem contents_cons (id : ι) :
    contents (update buckets bucket (id ::ₘ buckets bucket)) = id ::ₘ contents buckets := by
  have whole := contents_update buckets bucket (id ::ₘ buckets bucket)
  rw [Multiset.add_cons, ← Multiset.cons_add] at whole
  exact add_right_cancel whole

theorem contents_erase [DecidableEq ι] {id : ι} (member : id ∈ buckets bucket) :
    id ::ₘ contents (update buckets bucket ((buckets bucket).erase id)) = contents buckets := by
  have whole := contents_update buckets bucket ((buckets bucket).erase id)
  rw [← Multiset.cons_erase member, Multiset.erase_cons_head, Multiset.add_cons, ← Multiset.cons_add] at whole
  exact add_right_cancel whole

end Contents

end InfiniteRicks.Library.Tables
