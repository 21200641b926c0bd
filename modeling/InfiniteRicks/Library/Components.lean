import Mathlib.Logic.Relation
import Mathlib.Data.Set.Lattice

/-!
# Components of overlapping groups

Groups that share an element belong together. `AreComponents` says of classes that they
are the connected components of some groups. They can be computed one group at a time:
the classes that a further group hits become one class with it.
-/

namespace InfiniteRicks.Library.Components

variable {α : Type*}

/-- Both elements are in one of the groups. -/
def Together (groups : Set (Set α)) (a b : α) : Prop := ∃ group ∈ groups, a ∈ group ∧ b ∈ group

/-- The elements are linked by a chain of groups. -/
def Chained (groups : Set (Set α)) : α → α → Prop := Relation.TransGen (Together groups)

/-- The classes are disjoint, and two elements are in one class exactly where the groups link them. -/
structure AreComponents (groups classes : Set (Set α)) : Prop where
  disjoint : ∀ first ∈ classes, ∀ second ∈ classes, ∀ a, a ∈ first → a ∈ second → first = second
  linked : ∀ a b, Together classes a b ↔ Chained groups a b

/-- A group with all classes that it hits. -/
def merged (classes : Set (Set α)) (group : Set α) : Set α :=
  group ∪ ⋃₀ {hit ∈ classes | (hit ∩ group).Nonempty}

/-- The classes that a group does not hit. -/
def missed (classes : Set (Set α)) (group : Set α) : Set (Set α) := {c ∈ classes | ¬ (c ∩ group).Nonempty}

variable {groups classes : Set (Set α)} {group : Set α} {a b c : α}

theorem Together.symm (together : Together groups a b) : Together groups b a := by
  obtain ⟨group, member, first, second⟩ := together
  exact ⟨group, member, second, first⟩

theorem Together.of_subset {more : Set (Set α)} (subset : groups ⊆ more) (together : Together groups a b) :
    Together more a b := by
  obtain ⟨group, member, both⟩ := together
  exact ⟨group, subset member, both⟩

theorem Chained.symm (linked : Chained groups a b) : Chained groups b a := by
  induction linked with
  | single step => exact .single step.symm
  | tail _ step ih => exact .head step.symm ih

theorem Chained.of_subset {more : Set (Set α)} (subset : groups ⊆ more) (linked : Chained groups a b) :
    Chained more a b :=
  Relation.TransGen.mono (fun _ _ together => Together.of_subset subset together) a b linked

/-- A linked element is in some group. -/
theorem Chained.covered (linked : Chained groups a b) : ∃ group ∈ groups, a ∈ group := by
  obtain ⟨c, together, -⟩ := Relation.TransGen.head'_iff.mp linked
  obtain ⟨group, member, first, -⟩ := together
  exact ⟨group, member, first⟩

theorem areComponents_empty : AreComponents (∅ : Set (Set α)) ∅ where
  disjoint := fun _ member => member.elim
  linked := by
    intro a b
    refine iff_of_false ?_ fun linked => ?_
    · rintro ⟨_, member, -⟩
      exact member
    · obtain ⟨_, member, -⟩ := linked.covered
      exact member

/-- The merged class and the missed ones share nothing. -/
theorem disjoint_merged (disjoint : ∀ first ∈ classes, ∀ second ∈ classes, ∀ a, a ∈ first → a ∈ second → first = second)
    {class_ : Set α} (member : class_ ∈ missed classes group) (inClass : a ∈ class_) : a ∉ merged classes group := by
  rintro (inGroup | ⟨hit, ⟨known, touched⟩, inHit⟩)
  · exact member.2 ⟨a, inClass, inGroup⟩
  · exact member.2 (disjoint class_ member.1 hit known a inClass inHit ▸ touched)

theorem Together.trans (disjoint : ∀ first ∈ classes, ∀ second ∈ classes, ∀ a, a ∈ first → a ∈ second → first = second)
    (left : Together classes a b) (right : Together classes b c) : Together classes a c := by
  obtain ⟨first, inFirst, start, middle⟩ := left
  obtain ⟨second, inSecond, alsoMiddle, last⟩ := right
  obtain rfl := disjoint first inFirst second inSecond b middle alsoMiddle
  exact ⟨first, inFirst, start, last⟩

/-- Every element of the merged class is linked to one of the group. -/
theorem AreComponents.linked_group (components : AreComponents groups classes) (inMerged : a ∈ merged classes group) :
    ∃ x ∈ group, Chained (insert group groups) a x := by
  rcases inMerged with inGroup | ⟨hit, ⟨known, x, inHit, inGroup⟩, here⟩
  · exact ⟨a, inGroup, .single ⟨group, Set.mem_insert _ _, inGroup, inGroup⟩⟩
  · exact ⟨x, inGroup, ((components.linked a x).mp ⟨hit, known, here, inHit⟩).of_subset (Set.subset_insert _ _)⟩

/-- One group more. -/
theorem AreComponents.merge (components : AreComponents groups classes) (group : Set α) :
    AreComponents (insert group groups) (insert (merged classes group) (missed classes group)) := by
  have disjoint : ∀ first ∈ insert (merged classes group) (missed classes group),
      ∀ second ∈ insert (merged classes group) (missed classes group), ∀ a, a ∈ first → a ∈ second →
        first = second := by
    rintro first (rfl | firstMissed) second (rfl | secondMissed) a inFirst inSecond
    · rfl
    · exact absurd inFirst (disjoint_merged components.disjoint secondMissed inSecond)
    · exact absurd inSecond (disjoint_merged components.disjoint firstMissed inFirst)
    · exact components.disjoint first firstMissed.1 second secondMissed.1 a inFirst inSecond
  refine ⟨disjoint, fun a b => ⟨?_, fun linked => ?_⟩⟩
  · rintro ⟨class_, rfl | ⟨known, -⟩, inFirst, inSecond⟩
    · obtain ⟨x, inGroup, left⟩ := components.linked_group inFirst
      obtain ⟨y, alsoInGroup, right⟩ := components.linked_group inSecond
      exact (left.tail ⟨group, Set.mem_insert _ _, inGroup, alsoInGroup⟩).trans right.symm
    · exact ((components.linked a b).mp ⟨class_, known, inFirst, inSecond⟩).of_subset (Set.subset_insert _ _)
  · -- A class that the group hits is part of the merged one, and a chain stays within one class.
    have step : ∀ {x y}, Together (insert group groups) x y →
        Together (insert (merged classes group) (missed classes group)) x y := by
      rintro x y ⟨one, rfl | known, inX, inY⟩
      · exact ⟨_, Set.mem_insert _ _, .inl inX, .inl inY⟩
      · obtain ⟨class_, member, alsoX, alsoY⟩ := (components.linked x y).mpr (.single ⟨one, known, inX, inY⟩)
        by_cases touched : (class_ ∩ group).Nonempty
        · exact ⟨_, Set.mem_insert _ _, .inr ⟨class_, ⟨member, touched⟩, alsoX⟩, .inr ⟨class_, ⟨member, touched⟩, alsoY⟩⟩
        · exact ⟨class_, Set.mem_insert_of_mem _ ⟨member, touched⟩, alsoX, alsoY⟩
    induction linked with
    | single together => exact step together
    | tail _ together ih => exact ih.trans disjoint (step together)

end InfiniteRicks.Library.Components
