import Mathlib.Data.Int.ConditionallyCompleteOrder
import Mathlib.Order.ConditionallyCompleteLattice.Basic
import Mathlib.Data.List.ReduceOption
import Mathlib.Data.List.Induction
import Mathlib.Data.List.Nodup
import Mathlib.Data.List.Perm.Basic
import Mathlib.Order.Monotone.Basic
import Mathlib.Order.Lattice

/-!
# Insertion points

Items are visited one after another, and some of them have a position. An item that has none is inserted: it
gets the next position, and that becomes an insertion point. An item that has one is `moved` by the number of
insertion points, of those that there are so far, that are not after it. No later insertion point would move it
further (`Visited`), so only an item that is moved onto an insertion point is not told apart (`nodup_places_iff`).
-/

namespace InfiniteRicks.Library.Insertion

/-- The next position, the insertion points, and the positions of the items that have been visited. -/
structure State where
  next : Int
  points : List Int
  places : List Int

/-- Where a position comes to be by the insertions. -/
def moved (points : List Int) (p : Int) : Int := p + points.countP fun point => point ≤ p

/-- An item is visited. -/
def step (s : State) : Option Int → State
  | none => ⟨s.next + 1, s.points ++ [s.next], s.places ++ [s.next]⟩
  | some p => ⟨max s.next (moved s.points p + 1), s.points, s.places ++ [moved s.points p]⟩

/-- All items are visited. -/
def run (items : List (Option Int)) : State := items.foldl step ⟨0, [], []⟩

theorem run_concat (items : List (Option Int)) (item : Option Int) :
    run (items ++ [item]) = step (run items) item := by
  rw [run, List.foldl_append]
  rfl

/-- The next position never decreases. -/
theorem next_le_step (s : State) (item : Option Int) : s.next ≤ (step s item).next := by
  cases item with
  | none => exact Int.le_add_one le_rfl
  | some p => exact le_max_left _ _

theorem le_moved (points : List Int) (p : Int) : p ≤ moved points p := by
  rw [moved]
  omega

/-- Insertions do not change the order. -/
theorem moved_strictMono (points : List Int) : StrictMono (moved points) := by
  intro p q less
  have more : points.countP (fun point => point ≤ p) ≤ points.countP fun point => point ≤ q :=
    List.countP_mono_left fun point _ here => decide_eq_true ((of_decide_eq_true here).trans less.le)
  rw [moved, moved]
  omega

theorem moved_append {points : List Int} {p point : Int} (before : p < point) :
    moved (points ++ [point]) p = moved points p := by
  rw [moved, moved, List.countP_append, List.countP_singleton, decide_eq_false (not_le.mpr before)]
  rfl

/-- What is so after some items: the insertion points ascend and are below the next position, and so is every position
that was moved, as all insertion points together move it. -/
structure Visited (items : List (Option Int)) (s : State) : Prop where
  points : s.points.Pairwise (· < ·)
  range : ∀ point ∈ s.points, 0 ≤ point ∧ point < s.next
  next : 0 ≤ s.next
  fixed : ∀ p, some p ∈ items → moved s.points p < s.next
  length : s.places.length = items.length
  places : ∀ visit ∈ items.zip s.places, ∀ p, visit.1 = some p → visit.2 = moved s.points p
  perm : s.places.Perm (s.points ++ items.reduceOption.map (moved s.points))

variable {items : List (Option Int)} {s : State}

theorem mem_of_mem_append_none {p : Int} (member : some p ∈ items ++ [none]) : some p ∈ items := by
  rcases List.mem_append.mp member with old | own
  · exact old
  · cases List.mem_singleton.mp own

/-- An insertion point comes after all that has been visited. -/
theorem Visited.insert (visited : Visited items s) : Visited (items ++ [none]) (step s none) := by
  have before : ∀ p, some p ∈ items → moved (s.points ++ [s.next]) p = moved s.points p := fun p member =>
    moved_append (lt_of_le_of_lt (le_moved s.points p) (visited.fixed p member))
  have next := visited.next
  refine ⟨?_, fun point member => ?_, ?_, fun p member => ?_, ?_, fun visit member p isSome => ?_, ?_⟩
  · refine List.pairwise_append.mpr ⟨visited.points, List.pairwise_singleton _ _, fun point member other own => ?_⟩
    rw [List.mem_singleton.mp own]
    exact (visited.range point member).2
  · show 0 ≤ point ∧ point < s.next + 1
    rcases List.mem_append.mp member with old | own
    · have bounds := visited.range point old
      omega
    · rw [List.mem_singleton.mp own]
      omega
  · show 0 ≤ s.next + 1
    omega
  · have below := visited.fixed p (mem_of_mem_append_none member)
    show moved (s.points ++ [s.next]) p < s.next + 1
    rw [before p (mem_of_mem_append_none member)]
    omega
  · rw [step, List.length_append, List.length_append, visited.length]
    rfl
  · rw [step, List.zip_append visited.length.symm] at member
    rcases List.mem_append.mp member with old | own
    · rw [visited.places visit old p isSome]
      exact (before p (isSome ▸ (List.of_mem_zip old).1)).symm
    · rw [List.mem_singleton.mp own] at isSome
      cases isSome
  · have same : items.reduceOption.map (moved (s.points ++ [s.next])) = items.reduceOption.map (moved s.points) :=
      List.map_congr_left fun p member => before p (List.reduceOption_mem_iff.mp member)
    show (s.places ++ [s.next]).Perm
      (s.points ++ [s.next] ++ (items ++ [none]).reduceOption.map (moved (s.points ++ [s.next])))
    rw [List.reduceOption_append, List.reduceOption_singleton, Option.toList_none, List.append_nil, same, List.append_assoc]
    exact (visited.perm.append_right _).trans (by
      rw [List.append_assoc]
      exact List.perm_append_comm.append_left _)

/-- An item with a position leaves the insertion points as they are. -/
theorem Visited.move (visited : Visited items s) (p : Int) : Visited (items ++ [some p]) (step s (some p)) := by
  have next := visited.next
  have most : s.next ≤ max s.next (moved s.points p + 1) := le_max_left _ _
  have own : moved s.points p + 1 ≤ max s.next (moved s.points p + 1) := le_max_right _ _
  refine ⟨visited.points, fun point member => ?_, ?_, fun q member => ?_, ?_, fun visit member q isSome => ?_, ?_⟩
  · have bounds := visited.range point member
    show 0 ≤ point ∧ point < max s.next (moved s.points p + 1)
    omega
  · show 0 ≤ max s.next (moved s.points p + 1)
    omega
  · show moved s.points q < max s.next (moved s.points p + 1)
    rcases List.mem_append.mp member with old | last
    · have below := visited.fixed q old
      omega
    · rw [Option.some.inj (List.mem_singleton.mp last)]
      omega
  · rw [step, List.length_append, List.length_append, visited.length]
    rfl
  · rw [step, List.zip_append visited.length.symm] at member
    rcases List.mem_append.mp member with old | last
    · exact visited.places visit old q isSome
    · rw [List.mem_singleton.mp last] at isSome ⊢
      rw [← Option.some.inj isSome]
      rfl
  · show (s.places ++ [moved s.points p]).Perm (s.points ++ _)
    rw [List.reduceOption_append, List.reduceOption_singleton, Option.toList_some, List.map_append, List.map_singleton,
      ← List.append_assoc]
    exact visited.perm.append_right _

/-- After a run. -/
theorem visited_run (items : List (Option Int)) : Visited items (run items) := by
  induction items using List.reverseRecOn with
  | nil =>
      exact ⟨List.Pairwise.nil, List.forall_mem_nil _, le_rfl, fun p member => (List.not_mem_nil member).elim, rfl,
        fun visit member => (List.not_mem_nil member).elim, .nil⟩
  | append_singleton before item ih =>
      rw [run_concat]
      cases item with
      | none => exact ih.insert
      | some p => exact ih.move p

/-- There are no more insertion points than positions that have been passed. -/
theorem length_points_le (items : List (Option Int)) : ((run items).points.length : Int) ≤ (run items).next := by
  induction items using List.reverseRecOn with
  | nil => exact le_rfl
  | append_singleton before item ih =>
      rw [run_concat]
      cases item with
      | none =>
          show (((run before).points ++ [(run before).next]).length : Int) ≤ (run before).next + 1
          rw [List.length_append, List.length_singleton]
          omega
      | some p => exact ih.trans (next_le_step _ _)

/-- Items with different positions are told apart just where none is moved onto an insertion point. -/
theorem Visited.nodup_places_iff (visited : Visited items s) (distinct : items.reduceOption.Nodup) :
    s.places.Nodup ↔ ∀ p, some p ∈ items → moved s.points p ∉ s.points := by
  have moves : (items.reduceOption.map (moved s.points)).Nodup :=
    distinct.map (moved_strictMono s.points).injective
  have points : s.points.Nodup := visited.points.imp fun less => less.ne
  rw [visited.perm.nodup_iff, List.nodup_append]
  constructor
  · intro apart p member there
    exact apart.2.2 _ there _ (List.mem_map_of_mem (List.reduceOption_mem_iff.mpr member)) rfl
  · intro apart
    refine ⟨points, moves, fun point there other member same => ?_⟩
    obtain ⟨p, isSome, rfl⟩ := List.mem_map.mp member
    exact apart p (List.reduceOption_mem_iff.mp isSome) (same ▸ there)

end InfiniteRicks.Library.Insertion
